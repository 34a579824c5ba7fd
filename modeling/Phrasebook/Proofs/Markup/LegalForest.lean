import Phrasebook.Markup.Builder
import Phrasebook.Proofs.Markup.TokenStream

/-!
# Forests of pages

The builder keeps what the tokens guarantee: tags and leaves are legal, an element with raw text holds
one text at most, an element without content holds nothing, and no element stands directly in one that
its start tag would have ended.
-/

namespace Phrasebook.Markup

open Text

/-! ## Legal forests -/

/-- The name of an element around some nodes, if its content is raw text. -/
def rawName (parent : Option Text) : Option Text := parent.filter isRawText

/-- What a leaf inside the element `parent` can be. -/
def Leaf.LegalIn (parent : Option Text) (leaf : Leaf) : Prop :=
  match rawName parent with
  | none => leaf.Legal
  | some name => ∃ content, leaf = .text content ∧ RawText name content

/-- What the nodes inside the element `parent` can be. -/
def Forest.Legal (parent : Option Text) : Forest → Prop
  | .nil => True
  | .leaf l _ siblings =>
    l.LegalIn parent ∧ (rawName parent ≠ none → siblings = .nil) ∧ siblings.Legal parent
  | .element tag _ children siblings =>
    rawName parent = none ∧ tag.Legal ∧ (isSelfTerminating tag.name = true → parent ≠ some tag.name) ∧
      (tag.isEmpty = true → children = .nil) ∧ children.Legal (some tag.name) ∧
      siblings.Legal parent

theorem rawName_eq_some {parent : Option Text} {name : Text} :
    rawName parent = some name ↔ parent = some name ∧ isRawText name = true := by
  simp [rawName, Option.filter_eq_some_iff]

theorem rawName_some_eq_none {name : Text} : rawName (some name) = none ↔ isRawText name = false := by
  simp [rawName]

theorem special_of_isRawText {name : Text} (h : isRawText name = true) :
    isVoid name = false ∧ isOptionalEnd name = false ∧ isSelfTerminating name = false := by
  rcases eq_of_isRawText h with rfl | rfl <;> decide

theorem rawTextAfter_of_isEmpty {tag : Tag} (h : tag.isEmpty = true) :
    Reader.rawTextAfter (some (.openTag tag)) = none := by
  have hraw : tag.startsRawText = false := by
    rw [Bool.eq_false_iff]
    intro hs
    simp only [Tag.startsRawText, Bool.and_eq_true, Bool.not_eq_true'] at hs
    have := (special_of_isRawText hs.2).1
    simp [Tag.isEmpty, hs.1, this] at h
  simp [Reader.rawTextAfter, hraw]

theorem rawTextAfter_of_not_isEmpty {tag : Tag} (h : tag.isEmpty = false) :
    Reader.rawTextAfter (some (.openTag tag)) = rawName (some tag.name) := by
  simp only [Tag.isEmpty, Bool.or_eq_false_iff] at h
  simp [Reader.rawTextAfter, Tag.startsRawText, h.1, rawName, Option.filter]

/-- No element without content is named after an element with raw text. -/
theorem not_isVoid_of_prefix {name closing : Text} (h : isRawText name = true)
    (hp : name <+: closing) : isVoid closing = false := by
  have all : ∀ void ∈ voidNames, ¬ "script".toList <+: void ∧ ¬ "style".toList <+: void := by
    decide
  rw [Bool.eq_false_iff]
  intro hv
  have hmem : closing ∈ voidNames := by simpa [isVoid] using hv
  rcases eq_of_isRawText h with rfl | rfl
  · exact (all closing hmem).1 hp
  · exact (all closing hmem).2 hp

namespace Forest

theorem legal_reverseOnto {parent : Option Text} (hraw : rawName parent = none) {forest : Forest} :
    ∀ {behind : Forest}, forest.Legal parent → behind.Legal parent →
      (reverseOnto behind forest).Legal parent := by
  induction forest with
  | nil =>
    intro behind _ hb
    exact hb
  | leaf l position siblings ih =>
    rintro behind ⟨hl, -, hs⟩ hb
    exact ih hs ⟨hl, fun h => absurd hraw h, hb⟩
  | element tag position children siblings _ ih =>
    rintro behind ⟨hp, ht, hterm, hempty, hc, hs⟩ hb
    exact ih hs ⟨hp, ht, hterm, hempty, hc, hb⟩

theorem legal_reverse {parent : Option Text} {forest : Forest} (h : forest.Legal parent) :
    forest.reverse.Legal parent := by
  by_cases hraw : rawName parent = none
  · exact legal_reverseOnto hraw h trivial
  · cases forest with
    | nil => trivial
    | leaf l position siblings =>
      obtain rfl := h.2.1 hraw
      exact h
    | element tag position children siblings => exact absurd h.1 hraw

/-- Inside an element with raw text there is one text at most. -/
theorem Legal.raw_cases {name : Text} (hname : isRawText name = true) {forest : Forest}
    (h : forest.Legal (some name)) :
    forest = nil ∨
      ∃ content position, forest = leaf (.text content) position nil ∧ RawText name content := by
  have hraw : rawName (some name) = some name := rawName_eq_some.mpr ⟨rfl, hname⟩
  cases forest with
  | nil => exact Or.inl rfl
  | element tag position children siblings => exact absurd h.1 (by simp [hraw])
  | leaf l position siblings =>
    obtain ⟨hl, hnil, -⟩ := h
    obtain rfl := hnil (by simp [hraw])
    rw [Leaf.LegalIn, hraw] at hl
    obtain ⟨content, rfl, hcontent⟩ := hl
    exact Or.inr ⟨content, position, rfl, hcontent⟩

/-- What may stand in an ordinary element may stand anywhere. -/
theorem Legal.anywhere {parent : Option Text} (hraw : rawName parent = none) {forest : Forest}
    (h : forest.Legal parent) : forest.Legal none := by
  induction forest with
  | nil => trivial
  | leaf l position siblings ih =>
    obtain ⟨hl, -, hs⟩ := h
    refine ⟨?_, fun hne => absurd rfl hne, ih hs⟩
    rw [Leaf.LegalIn, hraw] at hl
    exact hl
  | element tag position children siblings _ ih =>
    obtain ⟨-, ht, -, hempty, hc, hs⟩ := h
    exact ⟨rfl, ht, fun _ => by simp, hempty, hc, ih hs⟩

end Forest

/-! ## Legal builders -/

def innermostName (opened : List OpenElement) : Option Text := opened.head?.map (·.tag.name)

def OpenedLegal : List OpenElement → Prop
  | [] => True
  | innermost :: outer =>
    rawName (innermostName outer) = none ∧ innermost.tag.Legal ∧
      (isSelfTerminating innermost.tag.name = true →
        innermostName outer ≠ some innermost.tag.name) ∧
      innermost.tag.isEmpty = false ∧ innermost.before.Legal (innermostName outer) ∧
      OpenedLegal outer

namespace Builder

structure Legal (builder : Builder) : Prop where
  finished : builder.finished.Legal (innermostName builder.opened)
  opened : OpenedLegal builder.opened

theorem legal_empty : empty.Legal := ⟨trivial, trivial⟩

theorem legal_close {builder : Builder} (h : builder.Legal) : builder.close.Legal := by
  obtain ⟨finished, opened⟩ := builder
  obtain ⟨hf, ho⟩ := h
  cases opened with
  | nil => exact ⟨hf, ho⟩
  | cons innermost outer =>
    obtain ⟨hraw, ht, hterm, hempty, hb, hout⟩ := ho
    refine ⟨⟨hraw, ht, hterm, ?_, Forest.legal_reverse hf, hb⟩, hout⟩
    intro h
    rw [hempty] at h
    cases h

/-- Around an open element there is none with raw text. -/
theorem rawName_close {builder : Builder} (h : builder.Legal) :
    rawName (innermostName builder.close.opened) = none := by
  obtain ⟨finished, opened⟩ := builder
  cases opened with
  | nil => rfl
  | cons innermost outer => exact h.opened.1

theorem legal_closeMany {builder : Builder} (h : builder.Legal) (count : Nat) :
    (closeMany count builder).Legal := by
  induction count generalizing builder with
  | zero => exact h
  | succ count ih => exact ih (legal_close h)

theorem rawName_closeMany {builder : Builder} (h : builder.Legal)
    (hraw : rawName (innermostName builder.opened) = none) (count : Nat) :
    rawName (innermostName (closeMany count builder).opened) = none := by
  induction count generalizing builder with
  | zero => exact hraw
  | succ count ih => exact ih (legal_close h) (rawName_close h)

theorem closeMany_opened (builder : Builder) :
    (closeMany builder.opened.length builder).opened = [] := by
  obtain ⟨finished, opened⟩ := builder
  induction opened generalizing finished with
  | nil => rfl
  | cons innermost outer ih => exact ih _

theorem legal_makeWayFor {builder : Builder} (h : builder.Legal) (name : Text) :
    (builder.makeWayFor name).Legal := by
  unfold makeWayFor
  split
  · exact legal_close h
  · exact h

theorem rawName_makeWayFor {builder : Builder} (h : builder.Legal)
    (hraw : rawName (innermostName builder.opened) = none) (name : Text) :
    rawName (innermostName (builder.makeWayFor name).opened) = none := by
  unfold makeWayFor
  split
  · exact rawName_close h
  · exact hraw

theorem innermostName_makeWayFor {builder : Builder} (h : builder.Legal) {name : Text}
    (hterm : isSelfTerminating name = true) :
    innermostName (builder.makeWayFor name).opened ≠ some name := by
  obtain ⟨finished, opened⟩ := builder
  unfold makeWayFor
  cases opened with
  | nil => simp [innermostName]
  | cons innermost outer =>
    by_cases hname : innermost.tag.name = name
    · obtain ⟨-, -, hself, -⟩ := h.opened
      rw [hname] at hself
      simpa [hterm, hname, close] using hself hterm
    · simp [hname, innermostName]

/-! ## Building from an orderly stream -/

/-- What can follow the tokens that a builder has taken. -/
inductive Expects (builder : Builder) : List Token → Prop where
  | ordinary {tokens : List Token} (legal : builder.Legal)
    (open_ : rawName (innermostName builder.opened) = none) (orderly : Orderly none tokens) :
    Expects builder tokens
  /-- The start tag of an element with raw text stands before. -/
  | raw {tokens : List Token} {name : Text} (legal : builder.Legal)
    (inside : rawName (innermostName builder.opened) = some name)
    (fresh : builder.finished = .nil) (orderly : Orderly (some name) tokens) :
    Expects builder tokens
  /-- Raw text stands before, and the end tag follows. -/
  | closing {later : List Token} {name closing : Text} (legal : builder.Legal)
    (inside : rawName (innermostName builder.opened) = some name) (named : name <+: closing)
    (orderly : Orderly none later) : Expects builder (.closeTag closing :: later)
  /-- Raw text stands before, and nothing follows. -/
  | spent {name : Text} (inside : rawName (innermostName builder.opened) = some name) :
    Expects builder []

/-- An element with raw text is closed by its own end tag alone. -/
theorem close_of_raw {builder builder' : Builder} {name closing : Text} {position : Position}
    (inside : rawName (innermostName builder.opened) = some name) (named : name <+: closing)
    (h : builder.add ⟨.closeTag closing, position⟩ = .ok builder') : builder' = builder.close := by
  obtain ⟨finished, opened⟩ := builder
  obtain ⟨hname, hraw⟩ := rawName_eq_some.mp inside
  cases opened with
  | nil => cases hname
  | cons innermost outer =>
    have hin : innermost.tag.name = name := by simpa [innermostName] using hname
    simp only [add, not_isVoid_of_prefix hraw named, Bool.false_eq_true, if_false] at h
    by_cases hc : innermost.tag.name = closing
    · simp [closeElement, List.findIdx?_cons, hc, innermostRequired?, closeMany,
        Except.mapError] at h
      exact h.symm
    · -- The element stands between the end tag and what it would close.
      have hrequired : isOptionalEnd innermost.tag.name = false := by
        rw [hin]
        exact (special_of_isRawText hraw).2.1
      unfold closeElement at h
      rw [List.findIdx?_cons] at h
      simp only [hc, decide_false, Bool.false_eq_true, if_false] at h
      cases hfind : outer.findIdx? fun element => decide (element.tag.name = closing) with
      | none => simp [hfind, Except.mapError] at h
      | some depth =>
        simp [hfind, innermostRequired?, hrequired, Except.mapError] at h

theorem expects_close {builder : Builder} {later : List Token} (legal : builder.Legal)
    (orderly : Orderly none later) : Expects builder.close later :=
  .ordinary (legal_close legal) (rawName_close legal) orderly

theorem expects_addLeaf {builder : Builder} {leaf : Leaf} {later : List Token} (legal : builder.Legal)
    (open_ : rawName (innermostName builder.opened) = none) (hl : leaf.Legal)
    (orderly : Orderly none later) (position : Position) :
    Expects (builder.addLeaf leaf position) later := by
  refine .ordinary ⟨⟨?_, fun h => absurd open_ h, legal.finished⟩, legal.opened⟩ open_ orderly
  change Leaf.LegalIn (innermostName builder.opened) leaf
  rw [Leaf.LegalIn, open_]
  exact hl

theorem expects_openElement {builder : Builder} {tag : Tag} {later : List Token}
    (legal : builder.Legal) (open_ : rawName (innermostName builder.opened) = none)
    (ht : tag.Legal) (orderly : Orderly (Reader.rawTextAfter (some (.openTag tag))) later)
    (position : Position) : Expects (builder.openElement tag position) later := by
  have hlegal := legal_makeWayFor legal tag.name
  have hopen := rawName_makeWayFor legal open_ tag.name
  have hterm : isSelfTerminating tag.name = true →
      innermostName (builder.makeWayFor tag.name).opened ≠ some tag.name :=
    innermostName_makeWayFor legal
  unfold openElement
  by_cases hempty : tag.isEmpty = true
  · simp only [hempty, if_true]
    rw [rawTextAfter_of_isEmpty hempty] at orderly
    exact .ordinary ⟨⟨hopen, ht, hterm, fun _ => rfl, trivial, hlegal.finished⟩, hlegal.opened⟩
      hopen orderly
  · have hempty' : tag.isEmpty = false := by simpa using hempty
    simp only [hempty', Bool.false_eq_true, if_false]
    rw [rawTextAfter_of_not_isEmpty hempty'] at orderly
    have hopened : Legal ⟨.nil, ⟨tag, position, (builder.makeWayFor tag.name).finished⟩ ::
        (builder.makeWayFor tag.name).opened⟩ :=
      ⟨trivial, hopen, ht, hterm, hempty', hlegal.finished, hlegal.opened⟩
    cases hraw : rawName (some tag.name) with
    | some name =>
      rw [hraw] at orderly
      exact .raw hopened hraw rfl orderly
    | none =>
      rw [hraw] at orderly
      exact .ordinary hopened hraw orderly

theorem closeMany_of_closeElement {builder builder' : Builder} {name : Text}
    (h : builder.closeElement name = .ok builder') : ∃ count, builder' = builder.closeMany count := by
  unfold closeElement at h
  split at h
  · cases h
  · split at h
    · cases h
    · cases h
      exact ⟨_, rfl⟩

theorem mapError_eq_ok {α ε ε' : Type} {f : ε → ε'} {x : Except ε α} {a : α}
    (h : x.mapError f = .ok a) : x = .ok a := by
  cases x with
  | error e => cases h
  | ok b => cases h; rfl

/-- One token leads from what is expected to what is expected. -/
theorem expects_add {builder builder' : Builder} {placed : Placed} {later : List Token}
    (h : Expects builder (placed.token :: later)) (hadd : builder.add placed = .ok builder') :
    Expects builder' later := by
  obtain ⟨token, position⟩ := placed
  generalize htokens : (Placed.mk token position).token :: later = tokens at h
  cases h with
  | ordinary legal open_ orderly =>
    subst htokens
    cases token with
    | leaf l =>
      cases hadd
      exact expects_addLeaf legal open_ orderly.1 orderly.2 position
    | openTag tag =>
      cases hadd
      exact expects_openElement legal open_ orderly.1 orderly.2 position
    | closeTag name =>
      unfold add at hadd
      simp only at hadd
      split at hadd
      · cases hadd
        exact .ordinary legal open_ orderly
      · obtain ⟨count, rfl⟩ := closeMany_of_closeElement (mapError_eq_ok hadd)
        exact .ordinary (legal_closeMany legal count) (rawName_closeMany legal open_ count) orderly
  | raw legal inside fresh orderly =>
    subst htokens
    rename_i name
    cases token with
    | openTag tag => exact absurd orderly (by simp [Orderly])
    | closeTag closing =>
      rw [close_of_raw inside orderly.1 hadd]
      exact expects_close legal orderly.2
    | leaf l =>
      cases l with
      | comment content => exact absurd orderly (by simp [Orderly])
      | serverCode code => exact absurd orderly (by simp [Orderly])
      | text content =>
        cases hadd
        obtain ⟨rfl | ⟨hraw, closing, others, rfl, named⟩, horderly⟩ := orderly
        · exact .spent inside
        · refine .closing ⟨⟨?_, fun _ => fresh, legal.finished⟩, legal.opened⟩ inside named horderly
          change Leaf.LegalIn (innermostName builder.opened) (.text content)
          rw [Leaf.LegalIn, inside]
          exact ⟨content, rfl, hraw⟩
  | closing legal inside named orderly =>
    cases htokens
    rw [close_of_raw inside named hadd]
    exact expects_close legal orderly
  | spent inside => cases htokens

theorem legal_of_finish {builder : Builder} {forest : Forest} (legal : builder.Legal)
    (h : builder.finish = .ok forest) : forest.Legal none := by
  unfold finish at h
  split at h
  · cases h
  · cases h
    have := (legal_closeMany legal builder.opened.length).finished
    rw [closeMany_opened] at this
    exact Forest.legal_reverse this

/-- An element with raw text cannot be left open. -/
theorem finish_of_raw {builder : Builder} {name : Text}
    (inside : rawName (innermostName builder.opened) = some name) :
    ∃ fault, builder.finish = .error fault := by
  obtain ⟨finished, opened⟩ := builder
  obtain ⟨hname, hraw⟩ := rawName_eq_some.mp inside
  cases opened with
  | nil => cases hname
  | cons innermost outer =>
    have hin : innermost.tag.name = name := by simpa [innermostName] using hname
    have hrequired := (special_of_isRawText hraw).2.1
    rw [← hin] at hrequired
    exact ⟨_, by simp [finish, innermostRequired?, hrequired]; rfl⟩

theorem legal_of_run {placed : List Placed} {builder : Builder} {forest : Forest}
    (h : Expects builder (placed.map (·.token)))
    (hrun : (placed.foldlM add builder >>= finish) = .ok forest) : forest.Legal none := by
  induction placed generalizing builder with
  | nil =>
    have hfinish : builder.finish = .ok forest := hrun
    cases h with
    | ordinary legal _ _ => exact legal_of_finish legal hfinish
    | raw legal _ _ _ => exact legal_of_finish legal hfinish
    | spent inside =>
      obtain ⟨fault, hfault⟩ := finish_of_raw inside
      rw [hfault] at hfinish
      cases hfinish
  | cons first others ih =>
    rw [List.foldlM_cons] at hrun
    cases hadd : builder.add first with
    | error fault =>
      rw [hadd] at hrun
      cases hrun
    | ok builder' =>
      rw [hadd] at hrun
      exact ih (expects_add h hadd) hrun

end Builder

/-- Every page that can be read is a legal forest. -/
theorem Forest.legal_of_ofSource {source : Text} {forest : Forest}
    (h : Forest.ofSource source = .ok forest) : forest.Legal none := by
  unfold ofSource ofTokens at h
  have horderly : Orderly none ((TokenStream.ofSource source).tokens.map (·.token)) :=
    Reader.orderly_stream source .start none (by simp)
  refine Builder.legal_of_run (.ordinary Builder.legal_empty rfl horderly) ?_
  cases hfold : (TokenStream.ofSource source).tokens.foldlM Builder.add Builder.empty with
  | error fault =>
    rw [hfold] at h
    cases h
  | ok builder =>
    rw [hfold] at h
    simp only [bind, Except.bind] at h ⊢
    split at h
    · cases h
    · exact h

end Phrasebook.Markup
