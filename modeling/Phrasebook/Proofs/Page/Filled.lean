import Phrasebook.Proofs.Markup.Collapsed
import Phrasebook.Proofs.Page.AttributeTable
import Phrasebook.Proofs.Page.Place

/-!
# Phrases are filled

No phrase of a page is blank. Text is collapsed and an attribute trimmed before it is tested, and the markup
of an element or of a unit keeps a start tag however it is collapsed.
-/

namespace Phrasebook

open Markup Text

/-! ## What a phrase of a page says -/

/-- What of a phrase is promised to say something, by its kind. -/
structure Phrase.IsFilled (phrase : Phrase) : Prop where
  text : phrase.kind = .textNode → phrase.value ≠ [] ∧ collapse phrase.value = phrase.value
  attr : ∀ name, phrase.kind = .attribute name →
    phrase.value ≠ [] ∧ trim phrase.value = phrase.value ∧ ¬ Page.MadeOfServerCode false phrase.value
  literal : phrase.kind = .serverString → ∃ c ∈ phrase.value, isBlank c = false
  /-- Read as a page of its own, the markup gives a start tag. -/
  markup : phrase.kind = .wholeElement →
    (∃ c rest, phrase.value = c :: rest ∧ isBlank c = false) ∧
      ∃ placed ∈ (TokenStream.ofSource phrase.value).tokens, ∃ tag, placed.token = .openTag tag
  hint : phrase.kind ≠ .serverString → ∀ hint, phrase.hint = some hint → allBlank hint = false

end Phrasebook

namespace Phrasebook.Page

open Markup Text

/-! ## Hints -/

theorem allBlank_of_hintOfComment {comment : Option Text} {hint : Text}
    (h : hintOfComment comment = some hint) : allBlank hint = false := by
  obtain ⟨hcollapsed, hfilled⟩ := Option.filter_eq_some_iff.mp h
  obtain ⟨text, -, rfl⟩ := Option.map_eq_some_iff.mp hcollapsed
  rw [decide_eq_true_eq, ne_eq, collapse_eq_nil_iff, Bool.not_eq_true] at hfilled
  rw [allBlank_collapse, hfilled]

theorem allBlank_hint {takeovers : List Takeover} {number : Nat} {comment : Option Text} :
    ∀ own, hint takeovers number comment = some own → allBlank own = false := by
  intro own h
  unfold hint at h
  split at h
  · rename_i heq
    cases h
    exact allBlank_of_hintOfComment heq
  · obtain ⟨takeover, -, htaken⟩ := Option.bind_eq_some_iff.mp h
    exact allBlank_of_hintOfComment htaken

/-- The line that names an attribute is not blank, whatever the names. -/
theorem allBlank_attributeHint (hint : Option Text) (name tagName : Text) :
    allBlank (attributeHint hint name tagName) = false := by
  have hline : allBlank (name ++ " attribute of " ++ tagName) = false := by
    have hwords : allBlank " attribute of " = false := by decide
    rw [allBlank_append, allBlank_append, hwords, Bool.and_false, Bool.false_and]
  cases hint with
  | none => exact hline
  | some comment => rw [attributeHint, allBlank_append, hline, Bool.and_false]

/-! ## Literals -/

variable {rules : Rules}

theorem isFilled_of_serverStrings {position : Position} {code : Text} {all : List Phrase}
    (h : serverStrings position code = .ok all) : ∀ phrase ∈ all, phrase.IsFilled := by
  obtain ⟨lexemes, -, hall⟩ := bind_eq_ok.mp h
  cases hall
  intro phrase hphrase
  obtain ⟨placed, -, hstring⟩ := List.mem_filterMap.mp hphrase
  obtain ⟨hfilled, hvalue⟩ := Option.ite_none_right_eq_some.mp hstring
  cases hvalue
  have hsolid : ∃ c ∈ Escape.decode .cFamily placed.lexeme.body, isBlank c = false := by
    simpa [allBlank] using hfilled.2
  exact
    { text := fun hkind => by cases hkind
      attr := fun _ hkind => by cases hkind
      literal := fun _ => hsolid
      markup := fun hkind => by cases hkind
      hint := fun hkind => absurd rfl hkind }

/-! ## Attributes -/

theorem isFilled_of_tagged {value : Text} (h : Tagged value) {hint : Option Text}
    (hhint : ∀ own, hint = some own → allBlank own = false) (line : Nat) :
    (Phrase.unkeyed .wholeElement (collapse value) hint line).IsFilled := by
  refine ⟨nofun, nofun, nofun, fun _ => ⟨?_, h.holds .start⟩, fun _ => hhint⟩
  obtain ⟨rest, hrest⟩ := head_of_startsMarkup h.starts
  exact ⟨'<', rest, hrest, by decide⟩

/-- The markup of a tag is a start tag, and is taken as it is. -/
theorem isFilled_write {tag : Tag} (legal : tag.Legal) (omitted : Text) {hint : Option Text}
    (hhint : ∀ own, hint = some own → allBlank own = false) (line : Nat) :
    (Phrase.unkeyed .wholeElement (tag.write omitted) hint line).IsFilled := by
  have hfirst := first_openTag (legal.without omitted) []
  rw [List.append_nil] at hfirst
  refine ⟨nofun, nofun, nofun, fun _ => ⟨⟨'<', _, tag.write_eq_inside omitted, by decide⟩, ?_⟩,
    fun _ => hhint⟩
  have hholds := holdsTag_of_first hfirst .start
  rwa [← tag.write_eq_inside omitted] at hholds

theorem isFilled_of_attributePhrases {state : ScopeState} {tag : Tag} (legal : tag.Legal)
    {hint : Option Text} (hhint : ∀ own, hint = some own → allBlank own = false) {line : Nat} :
    ∀ phrase ∈ attributePhrases rules state tag hint line, phrase.IsFilled := by
  intro phrase hphrase
  unfold attributePhrases at hphrase
  rw [translatableAttributes_eq_eligible] at hphrase
  simp only at hphrase
  split at hphrase
  · rw [List.mem_singleton.mp hphrase]
    exact isFilled_write legal rules.scopeAttribute hhint line
  · obtain ⟨entry, hentry, rfl⟩ := List.mem_map.mp hphrase
    obtain ⟨attr, hattr, rfl⟩ := List.mem_map.mp hentry
    have heligible : IsEligible rules attr := of_decide_eq_true (List.mem_filter.mp hattr).2
    obtain ⟨value, hvalue, hne, hcode⟩ := heligible.filled
    have htrimmed : trimmed attr = trim value := by rw [trimmed, hvalue, Option.getD_some]
    refine ⟨nofun, fun _ _ => ?_, nofun, nofun, ?_⟩
    · simp only [Phrase.unkeyed, htrimmed]
      exact ⟨hne, trim_trim value, hcode⟩
    · rintro - own ⟨⟩
      exact allBlank_attributeHint hint attr.name tag.name
  · cases hphrase

/-! ## Text and markup -/

/-- Where nothing but markup is, a row that has an element keeps its start tag. -/
theorem tagged_of_markup {parent : Option Text} {state : ScopeState} {forest : Forest}
    (legal : forest.Legal parent) (helement : hasElement forest = true)
    (hblank : allBlank (ownText rules state forest) = true) (omitted : Text) :
    Tagged (forest.write omitted) := by
  induction forest with
  | nil => cases helement
  | element tag position children siblings =>
    rw [Forest.write, List.append_assoc]
    exact tagged_write legal.2.1 omitted _
  | leaf l position siblings ih =>
    obtain ⟨hleaf, hlast, hsiblings⟩ := legal
    have hraw : rawName parent = none := by
      by_contra hraw
      rw [hasElement, hlast hraw] at helement
      cases helement
    rw [Leaf.LegalIn, hraw] at hleaf
    rw [ownText.eq_def] at hblank
    simp only [allBlank_append, Bool.and_eq_true] at hblank
    have hlater := ih hsiblings helement hblank.2
    rw [Forest.write]
    cases l with
    | text content => exact hlater.blank hblank.1
    | comment content => exact hlater.comment hleaf
    | serverCode code => exact hlater.serverCode hleaf.1

theorem isFilled_of_content? {parent : Option Text} {state : ScopeState} {children : Forest}
    (legal : children.Legal parent) {content : Content} (h : content? rules state children = some content)
    {hint : Option Text} (hhint : ∀ own, hint = some own → allBlank own = false) (line : Nat) :
    (content.phrase hint line).IsFilled := by
  unfold content? at h
  simp only at h
  split at h
  · rename_i htext
    cases h
    exact ⟨fun _ => ⟨htext, collapse_collapse _⟩, nofun, nofun, nofun, fun _ => hhint⟩
  · rename_i hnone
    split at h
    · rename_i hmarkup
      cases h
      simp only [isMarkupUnit, Bool.and_eq_true] at hmarkup
      have hblank := collapse_eq_nil_iff.mp (Classical.not_not.mp hnone)
      exact isFilled_of_tagged (tagged_of_markup legal hmarkup.1.2 hblank _) hhint line
    · cases h

/-! ## The page -/

theorem isFilled_of_visitElement {state : ScopeState} {tag : Tag} (legal : tag.Legal)
    {parent : Option Text} {children : Forest} (hchildren : children.Legal parent)
    (delegate : Option Nat) {hint : Option Text}
    (hhint : ∀ own, hint = some own → allBlank own = false) (line : Nat) :
    ∀ phrase ∈ (visitElement rules state tag children delegate hint line).phrases, phrase.IsFilled := by
  intro phrase hphrase
  rcases visitElement_cases rules state tag children delegate hint line with
    hvisit | ⟨-, hvisit⟩ | ⟨content, -, hcontent, hvisit⟩
  · rw [hvisit] at hphrase
    cases hphrase
  · rw [hvisit] at hphrase
    exact isFilled_of_attributePhrases legal hhint phrase hphrase
  · rw [hvisit] at hphrase
    rw [List.mem_singleton.mp hphrase]
    exact isFilled_of_content? hchildren hcontent hhint line

theorem isFilled_of_walk {parent : Option Text} {state : ScopeState} {takeovers : List Takeover}
    {first : Nat} {comment : Option Text} {forest : Forest} (legal : forest.Legal parent)
    {all : List Phrase} (h : walk rules state takeovers first comment forest = .ok all) :
    ∀ phrase ∈ all, phrase.IsFilled := by
  induction forest generalizing parent state takeovers first comment all with
  | nil =>
    cases h
    simp
  | leaf l position siblings ih =>
    rw [walk_leaf] at h
    obtain ⟨here, later, hhere, hlater, rfl⟩ := inOrder_eq_ok.mp h
    refine List.forall_mem_append.mpr ⟨?_, ih legal.2.2 hlater⟩
    unfold leafPhrases at hhere
    split at hhere
    · split at hhere
      · cases hhere
        simp
      · exact isFilled_of_serverStrings hhere
    · cases hhere
      simp
  | element tag position children siblings ihc ihs =>
    obtain ⟨-, htag, -, -, hchildren, hsiblings⟩ := legal
    rw [walk_element] at h
    obtain ⟨here, rest, hhere, hrest, rfl⟩ := inOrder_eq_ok.mp h
    obtain ⟨below, later, hbelow, hlater, rfl⟩ := inOrder_eq_ok.mp hrest
    cases hhere
    refine List.forall_mem_append.mpr ⟨?_, List.forall_mem_append.mpr ⟨?_, ihs hsiblings hlater⟩⟩
    · exact isFilled_of_visitElement htag hchildren _ allBlank_hint _
    · split at hbelow
      · exact ihc hchildren hbelow
      · cases hbelow
        simp

/-- Whatever page, scope attribute and policy, the phrases say what is promised for their kind. -/
theorem isFilled_of_phrases {rules : Rules} {source : Text} {records : List Phrase}
    (h : phrases rules source = .ok records) : ∀ phrase ∈ records, phrase.IsFilled := by
  obtain ⟨forest, hforest, hwalk⟩ := exists_walk_of_phrases h
  exact isFilled_of_walk (Forest.legal_of_ofSource hforest) hwalk

/-- A text behind a comment, a picture, a literal, and a unit of markup with a line break in its tag. -/
theorem isFilled_of_phrases_four :
    let source : Text :=
      "<!-- h --><p> a  b </p><img alt=' c '><?f(\" d\")?><div lang=en> <!--x--><i a='\n >'></i></div>"
    let records : List Phrase :=
      [.unkeyed .textNode "a b" (some "h") 1, .unkeyed (.attribute "alt") "c" (some "alt attribute of img") 1,
        .unkeyed .serverString " d" none 1, .unkeyed .wholeElement "<!--x--><i a=\" >\"></i>" none 1]
    phrases ⟨"lang", .standard⟩ source = .ok records ∧ ∀ phrase ∈ records, phrase.IsFilled := by
  intro source records
  have hrecords : phrases ⟨"lang", .standard⟩ source = .ok records := by decide +kernel
  exact ⟨hrecords, isFilled_of_phrases hrecords⟩

end Phrasebook.Page
