import Phrasebook.Proofs.Markup.Numbering
import Phrasebook.Proofs.Markup.RoundTrip
import Phrasebook.Proofs.Nesting

/-!
# Which pages are accepted

Of a page that is accepted, the tags of elements whose end tag is required nest, whatever elements with
an optional end tag stand among them. A page that is refused is refused at an end tag that fits no open
element, or that would close an element before its own end tag, or for an element left open.
-/

namespace Phrasebook.Markup

/-! ## Elements whose end tag is required -/

def isRequired (name : Text) : Bool := !isVoid name && !isOptionalEnd name

/-- The mark of a tag whose element needs an end tag. -/
def Token.mark? : Token → Option (Mark Text)
  | .leaf _ => none
  | .openTag tag => if isRequired tag.name && !tag.selfClosing then some (.opening tag.name) else none
  | .closeTag name => if isRequired name then some (.closing name) else none

def requiredMarks (tokens : List Placed) : List (Mark Text) :=
  tokens.filterMap fun placed => placed.token.mark?

/-- A tag of an element whose end tag may be left out. -/
def Token.isOptional : Token → Bool
  | .leaf _ => false
  | .openTag tag => isOptionalEnd tag.name
  | .closeTag name => isOptionalEnd name

/-! ## Open elements -/

/-- The start tag of an open element. -/
structure OpenTag where
  tag : Tag
  position : Position
  deriving DecidableEq, Repr

/-- The elements that are open behind one more token, the innermost first. -/
def openStep (opened : List OpenTag) (placed : Placed) : List OpenTag :=
  match placed.token with
  | .leaf _ => opened
  | .openTag tag =>
    let around :=
      if isSelfTerminating tag.name ∧ opened.head?.any (fun innermost => innermost.tag.name = tag.name)
      then opened.tail else opened
    if tag.isEmpty then around else ⟨tag, placed.position⟩ :: around
  | .closeTag name =>
    if isVoid name then opened
    else (opened.dropWhile fun element => element.tag.name ≠ name).tail

/-- The elements that are open behind some tokens, the innermost first. -/
def openElements (tokens : List Placed) : List OpenTag := tokens.foldl openStep []

/-- The names of the open elements that wait for their end tags. -/
def requiredNames (opened : List OpenTag) : List Text :=
  (opened.map (·.tag.name)).filter isRequired

/-- The first of the elements, from the inside, whose end tag is required. -/
def InnermostRequired (opened : List OpenTag) (element : OpenTag) : Prop :=
  ∃ inner outer, opened = inner ++ element :: outer ∧
    (∀ other ∈ inner, isRequired other.tag.name = false) ∧ isRequired element.tag.name = true

/-! ## Refusals -/

/-- Why an end tag named `name` is refused where `opened` is open. -/
structure RefusesEnd (opened : List OpenTag) (name : Text) (cause : Fault.Cause) : Prop where
  unexpected_iff : cause = .unexpectedClose (endTag name) ↔
    ∀ element ∈ opened, element.tag.name ≠ name
  /-- An element inside the one that the end tag names is not closed. -/
  mismatched : (∃ element ∈ opened, element.tag.name = name) →
    ∃ blocking, InnermostRequired (opened.takeWhile fun element => element.tag.name ≠ name) blocking ∧
      cause = .mismatchedClose (endTag blocking.tag.name) (endTag name)

/-- No end tag among the tokens is refused. -/
def EndsFit (tokens : List Placed) : Prop :=
  ∀ before name position after, tokens = before ++ ⟨.closeTag name, position⟩ :: after →
    isVoid name = false → ∀ cause, ¬ RefusesEnd (openElements before) name cause

/-- Where and why a stream is refused. -/
inductive Refused (stream : TokenStream) : Fault → Prop where
  /-- At the first end tag that is refused. -/
  | atEndTag {before after : List Placed} {name : Text} {position : Position} {cause : Fault.Cause}
    (split : stream.tokens = before ++ ⟨.closeTag name, position⟩ :: after) (fits : EndsFit before)
    (content : isVoid name = false) (why : RefusesEnd (openElements before) name cause) :
    Refused stream ⟨cause, position⟩
  /-- The tokens themselves cannot be read to their end. -/
  | unread {fault : Fault} (fits : EndsFit stream.tokens) (why : stream.fault = some fault) :
    Refused stream fault
  | atEnd {element : OpenTag} (fits : EndsFit stream.tokens) (ended : stream.fault = none)
    (why : InnermostRequired (openElements stream.tokens) element) :
    Refused stream ⟨.unclosed element.tag.name, element.position⟩

/-! ## Names -/

theorem not_isRequired_of_isSelfTerminating {name : Text} (h : isSelfTerminating name = true) :
    isRequired name = false := by
  have all : ∀ listed ∈ selfTerminatingNames, isRequired listed = false := by decide
  exact all name (by simpa [isSelfTerminating] using h)

theorem isRequired_iff {name : Text} :
    isRequired name = true ↔ isVoid name = false ∧ isOptionalEnd name = false := by
  simp [isRequired]

theorem mark?_openTag {tag : Tag} (h : isOptionalEnd tag.name = false) :
    Token.mark? (.openTag tag) = if tag.isEmpty then none else some (.opening tag.name) := by
  cases hself : tag.selfClosing <;> cases hvoid : isVoid tag.name <;>
    simp [Token.mark?, Tag.isEmpty, isRequired, hself, hvoid, h]

theorem mark?_closeTag {name : Text} (h : isOptionalEnd name = false) :
    Token.mark? (.closeTag name) = if isVoid name then none else some (.closing name) := by
  cases hvoid : isVoid name <;> simp [Token.mark?, isRequired, hvoid, h]

theorem isOptionalEnd_of_isSelfTerminating {name : Text} (h : isSelfTerminating name = true) :
    isOptionalEnd name = true := by
  have all : ∀ listed ∈ selfTerminatingNames, isOptionalEnd listed = true := by decide
  exact all name (by simpa [isSelfTerminating] using h)

/-! ## What is open in a builder -/

def OpenElement.openTag (element : OpenElement) : OpenTag := ⟨element.tag, element.position⟩

namespace Builder

def openTags (builder : Builder) : List OpenTag := builder.opened.map OpenElement.openTag

theorem openTags_makeWayFor (builder : Builder) (name : Text) :
    (builder.makeWayFor name).openTags =
      if isSelfTerminating name ∧ builder.openTags.head?.any (fun innermost => innermost.tag.name = name)
      then builder.openTags.tail else builder.openTags := by
  obtain ⟨finished, opened⟩ := builder
  cases opened with
  | nil => simp [makeWayFor, openTags]
  | cons innermost outer =>
    by_cases h : isSelfTerminating name = true ∧ innermost.tag.name = name
    · simp [makeWayFor, openTags, OpenElement.openTag, h, close]
    · simp [makeWayFor, openTags, OpenElement.openTag, h]

/-- What is open inside the innermost element with the name, and what from there on. -/
theorem openTags_span {builder : Builder} {name : Text} {inner outer : List OpenElement}
    {matching : OpenElement} (hopened : builder.opened = inner ++ matching :: outer)
    (hinner : ∀ element ∈ inner, element.tag.name ≠ name) (hname : matching.tag.name = name) :
    (builder.openTags.takeWhile fun element => element.tag.name ≠ name) =
        inner.map OpenElement.openTag ∧
      (builder.openTags.dropWhile fun element => element.tag.name ≠ name) =
        matching.openTag :: outer.map OpenElement.openTag := by
  have hskip : ∀ element ∈ inner.map OpenElement.openTag,
      decide (element.tag.name ≠ name) = true := by
    intro element hmem
    obtain ⟨other, hother, rfl⟩ := List.mem_map.mp hmem
    exact decide_eq_true (hinner other hother)
  have hstop : matching.openTag.tag.name = name := hname
  rw [openTags, hopened, List.map_append, List.takeWhile_append_of_pos hskip,
    List.dropWhile_append_of_pos hskip]
  simp [hstop]

theorem openTags_closeElement {builder builder' : Builder} {name : Text}
    (h : builder.closeElement name = .ok builder') :
    builder'.openTags = (builder.openTags.dropWhile fun element => element.tag.name ≠ name).tail := by
  obtain ⟨inner, matching, outer, hopened, hinner, hname, -, rfl⟩ := closeElement_eq_ok h
  rw [(openTags_span hopened hinner hname).2, openTags, opened_closeMany, hopened]
  simp

theorem openTags_add {builder builder' : Builder} {placed : Placed}
    (h : builder.add placed = .ok builder') :
    builder'.openTags = openStep builder.openTags placed := by
  obtain ⟨token, position⟩ := placed
  cases token with
  | leaf l =>
    cases h
    rfl
  | openTag tag =>
    cases h
    simp only [openStep, ← openTags_makeWayFor, openElement]
    split <;> rfl
  | closeTag name =>
    rw [add_closeTag] at h
    simp only [openStep]
    split at h
    · rename_i hvoid
      cases h
      rw [if_pos hvoid]
    · rename_i hvoid
      rw [if_neg hvoid]
      exact openTags_closeElement (mapError_eq_ok h)

/-- The elements that a builder holds open are those that its tokens leave open. -/
theorem openTags_of_run {tokens : List Placed} {builder : Builder}
    (h : tokens.foldlM add empty = .ok builder) : builder.openTags = openElements tokens := by
  refine run_induction (P := fun seen builder => builder.openTags = openElements seen) rfl ?_ h
  intro seen builder builder' placed hseen hadd
  rw [openTags_add hadd, hseen, openElements, openElements, List.foldl_append]
  rfl

/-- An element without content is never open. -/
theorem not_isEmpty_of_run {tokens : List Placed} {builder : Builder}
    (h : tokens.foldlM add empty = .ok builder) :
    ∀ element ∈ builder.opened, element.tag.isEmpty = false :=
  fun element hmem => ((run_induction holds_empty holds_add h).opened element hmem).1

/-! ## The names that wait for their end tags -/

theorem requiredNames_makeWayFor (builder : Builder) (name : Text) :
    requiredNames (builder.makeWayFor name).openTags = requiredNames builder.openTags := by
  obtain ⟨finished, opened⟩ := builder
  unfold makeWayFor
  split
  · rename_i h
    obtain ⟨hterm, hhead⟩ := h
    cases opened with
    | nil => rfl
    | cons innermost outer =>
      have hname : innermost.tag.name = name := by simpa using hhead
      have hoptional := not_isRequired_of_isSelfTerminating hterm
      simp [requiredNames, openTags, OpenElement.openTag, close, hname, hoptional]
  · rfl

theorem requiredNames_append (a b : List OpenTag) :
    requiredNames (a ++ b) = requiredNames a ++ requiredNames b := by
  simp [requiredNames]

theorem requiredNames_of_optional {opened : List OpenElement}
    (h : ∀ element ∈ opened, isOptionalEnd element.tag.name = true) :
    requiredNames (opened.map OpenElement.openTag) = [] := by
  unfold requiredNames
  rw [List.filter_eq_nil_iff]
  intro name hmem
  simp only [List.map_map, List.mem_map] at hmem
  obtain ⟨element, helement, rfl⟩ := hmem
  simp [isRequired, OpenElement.openTag, h element helement]

/-- A token opens or closes what its mark does. -/
theorem openBehind?_mark {builder builder' : Builder} {placed : Placed}
    (h : builder.add placed = .ok builder') :
    Mark.openBehind? (requiredNames builder.openTags) placed.token.mark?.toList =
      some (requiredNames builder'.openTags) := by
  obtain ⟨token, position⟩ := placed
  cases token with
  | leaf l =>
    cases h
    rfl
  | openTag tag =>
    cases h
    rw [← requiredNames_makeWayFor builder tag.name, openElement]
    simp only [Token.mark?]
    cases hself : tag.selfClosing with
    | true => simp [Tag.isEmpty, hself, Mark.openBehind?, openTags]
    | false =>
      cases hvoid : isVoid tag.name with
      | true => simp [Tag.isEmpty, hvoid, isRequired, Mark.openBehind?, openTags]
      | false =>
        cases hreq : isRequired tag.name <;>
          simp [Tag.isEmpty, hself, hvoid, hreq, Mark.openBehind?, openTags, requiredNames,
            OpenElement.openTag]
  | closeTag name =>
    rw [add_closeTag] at h
    split at h
    · rename_i hvoid
      cases h
      simp [Token.mark?, isRequired, hvoid, Mark.openBehind?]
    · obtain ⟨inner, matching, outer, hopened, -, hname, hoptional, rfl⟩ :=
        closeElement_eq_ok (mapError_eq_ok h)
      have hbefore : requiredNames builder.openTags =
          requiredNames [matching.openTag] ++ requiredNames (outer.map OpenElement.openTag) := by
        rw [openTags, hopened, List.map_append, requiredNames_append,
          requiredNames_of_optional hoptional, List.nil_append, List.map_cons,
          ← List.singleton_append, requiredNames_append]
      have hbehind : (builder.closeMany (inner.length + 1)).openTags =
          outer.map OpenElement.openTag := by
        rw [openTags, opened_closeMany, hopened]
        simp
      rw [hbefore, hbehind]
      cases hreq : isRequired name <;>
        simp [Token.mark?, requiredNames, OpenElement.openTag, hname, hreq, Mark.openBehind?]

theorem openBehind?_run {tokens : List Placed} {builder : Builder}
    (h : tokens.foldlM add empty = .ok builder) :
    Mark.openBehind? [] (requiredMarks tokens) = some (requiredNames builder.openTags) := by
  refine run_induction (P := fun seen builder =>
    Mark.openBehind? [] (requiredMarks seen) = some (requiredNames builder.openTags)) rfl ?_ h
  intro seen builder builder' placed hseen hadd
  have hmarks : requiredMarks (seen ++ [placed]) =
      requiredMarks seen ++ placed.token.mark?.toList := by
    rw [requiredMarks, List.filterMap_append]
    cases hmark : placed.token.mark? <;> simp [requiredMarks, hmark]
  rw [hmarks, Mark.openBehind?_append, hseen]
  exact openBehind?_mark hadd

/-! ## Pages that are accepted -/

theorem nested_of_finish {tokens : List Placed} {builder : Builder} {forest : Forest}
    (hrun : tokens.foldlM add empty = .ok builder) (hfinish : builder.finish = .ok forest) :
    Mark.Nested (requiredMarks tokens) := by
  unfold finish at hfinish
  split at hfinish
  · cases hfinish
  · rename_i hnone
    have hnames := requiredNames_of_optional (innermostRequired?_eq_none_iff.mp hnone)
    rw [Mark.nested_iff, openBehind?_run hrun]
    exact congrArg some hnames

/-- A token that is not optional is taken where its mark fits. With no optional elements, all that is
open waits for its end tag, so that the names alone decide. -/
theorem exists_add {builder : Builder} {placed : Placed} {names : List Text}
    (hrequired : ∀ element ∈ builder.opened, isRequired element.tag.name = true)
    (hplain : placed.token.isOptional = false)
    (h : Mark.openBehind? (builder.opened.map (·.tag.name)) placed.token.mark?.toList = some names) :
    ∃ builder', builder.add placed = .ok builder' ∧
      builder'.opened.map (·.tag.name) = names ∧
      ∀ element ∈ builder'.opened, isRequired element.tag.name = true := by
  obtain ⟨token, position⟩ := placed
  cases token with
  | leaf l =>
    cases h
    exact ⟨_, rfl, rfl, hrequired⟩
  | openTag tag =>
    have hterm : isSelfTerminating tag.name = false := by
      rw [Bool.eq_false_iff]
      intro hs
      rw [Token.isOptional, isOptionalEnd_of_isSelfTerminating hs] at hplain
      cases hplain
    obtain ⟨finished, opened⟩ := builder
    refine ⟨_, add_openTag (by simp [hterm]) finished position, ?_⟩
    simp only [mark?_openTag hplain] at h
    cases hempty : tag.isEmpty with
    | true =>
      rw [hempty, if_pos rfl] at h
      cases h
      exact ⟨rfl, hrequired⟩
    | false =>
      rw [hempty, if_neg (by simp)] at h
      cases h
      refine ⟨rfl, List.forall_mem_cons.mpr ⟨?_, hrequired⟩⟩
      simp only [Tag.isEmpty, Bool.or_eq_false_iff] at hempty
      exact isRequired_iff.mpr ⟨hempty.2, hplain⟩
  | closeTag name =>
    simp only [mark?_closeTag hplain] at h
    rw [add_closeTag]
    cases hvoid : isVoid name with
    | true =>
      rw [hvoid, if_pos rfl] at h
      cases h
      exact ⟨_, rfl, rfl, hrequired⟩
    | false =>
      rw [hvoid, if_neg (by simp)] at h
      obtain ⟨finished, opened⟩ := builder
      cases opened with
      | nil => cases h
      | cons innermost outer =>
        simp only [List.map_cons, Option.toList_some, Mark.openBehind?,
          Option.ite_none_right_eq_some, Option.some.injEq] at h
        obtain ⟨rfl, rfl⟩ := h
        refine ⟨close ⟨finished, innermost :: outer⟩, ?_, rfl, ?_⟩
        · rw [← add_closeTag_innermost finished innermost outer hvoid position, add_closeTag, hvoid]
        · exact fun element hmem => hrequired element (List.mem_cons_of_mem _ hmem)

theorem exists_run {tokens : List Placed} {builder : Builder} {names : List Text}
    (hrequired : ∀ element ∈ builder.opened, isRequired element.tag.name = true)
    (hplain : ∀ placed ∈ tokens, placed.token.isOptional = false)
    (h : Mark.openBehind? (builder.opened.map (·.tag.name)) (requiredMarks tokens) = some names) :
    ∃ builder', tokens.foldlM add builder = .ok builder' ∧
      builder'.opened.map (·.tag.name) = names := by
  induction tokens generalizing builder with
  | nil =>
    cases h
    exact ⟨builder, rfl, rfl⟩
  | cons placed later ih =>
    have hmarks : requiredMarks (placed :: later) =
        placed.token.mark?.toList ++ requiredMarks later := by
      cases hmark : placed.token.mark? <;> simp [requiredMarks, hmark]
    rw [hmarks, Mark.openBehind?_append, Option.bind_eq_some_iff] at h
    obtain ⟨between, hfirst, hlater⟩ := h
    obtain ⟨builder', hadd, rfl, hrequired'⟩ :=
      exists_add hrequired (hplain placed List.mem_cons_self) hfirst
    obtain ⟨last, hrun, hnames⟩ := ih hrequired'
      (fun other hmem => hplain other (List.mem_cons_of_mem _ hmem)) hlater
    exact ⟨last, (foldlM_add_cons hadd later).trans hrun, hnames⟩

theorem exists_forest_of_nested {stream : TokenStream} (hread : stream.fault = none)
    (hplain : ∀ placed ∈ stream.tokens, placed.token.isOptional = false)
    (h : Mark.Nested (requiredMarks stream.tokens)) :
    ∃ forest, Forest.ofTokens stream = .ok forest := by
  have hstart : ∀ element ∈ empty.opened, isRequired element.tag.name = true := nofun
  obtain ⟨builder, hrun, hnames⟩ := exists_run hstart hplain (Mark.nested_iff.mp h)
  have hclosed : builder.opened = [] := List.map_eq_nil_iff.mp hnames
  have hfinish : builder.finish = .ok builder.finished.reverse := by
    rw [finish, hclosed]
    rfl
  exact ⟨_, ofTokens_eq_ok_iff.mpr ⟨builder, hrun, hread, hfinish⟩⟩

/-! ## Pages that are refused -/

theorem innermostRequired_of_find {opened : List OpenElement} {blocking : OpenElement}
    (hempty : ∀ element ∈ opened, element.tag.isEmpty = false)
    (h : innermostRequired? opened = some blocking) :
    InnermostRequired (opened.map OpenElement.openTag) blocking.openTag := by
  obtain ⟨hreq, inner, outer, rfl, hinner⟩ := List.find?_eq_some_iff_append.mp h
  refine ⟨inner.map OpenElement.openTag, outer.map OpenElement.openTag, by simp, ?_, ?_⟩
  · intro element hmem
    obtain ⟨other, hother, rfl⟩ := List.mem_map.mp hmem
    have hoptional : isOptionalEnd other.tag.name = true := by simpa using hinner other hother
    simp [isRequired, OpenElement.openTag, hoptional]
  · have hvoid := hempty blocking (by simp)
    simp only [Tag.isEmpty, Bool.or_eq_false_iff] at hvoid
    have hoptional : isOptionalEnd blocking.tag.name = false := by simpa using hreq
    exact isRequired_iff.mpr ⟨hvoid.2, hoptional⟩

theorem refusesEnd_of_closeElement {builder : Builder} {name : Text} {cause : Fault.Cause}
    (hempty : ∀ element ∈ builder.opened, element.tag.isEmpty = false)
    (h : builder.closeElement name = .error cause) : RefusesEnd builder.openTags name cause := by
  rcases builder.closeElement_cases name with
    ⟨hnone, hclose⟩ | ⟨inner, matching, outer, hopened, hinner, hname, hclose⟩
  · rw [hclose] at h
    cases h
    have hnone' : ∀ element ∈ builder.openTags, element.tag.name ≠ name := by
      intro element hmem
      obtain ⟨other, hother, rfl⟩ := List.mem_map.mp hmem
      exact hnone other hother
    exact ⟨⟨fun _ => hnone', fun _ => rfl⟩, fun ⟨element, hmem, heq⟩ => absurd heq (hnone' element hmem)⟩
  · rw [hclose] at h
    cases hfind : innermostRequired? inner with
    | none =>
      rw [hfind] at h
      cases h
    | some blocking =>
      rw [hfind] at h
      cases h
      have hmatching : matching.openTag ∈ builder.openTags := by simp [openTags, hopened]
      refine ⟨⟨nofun, fun hnone => absurd hname (hnone _ hmatching)⟩, fun _ => ?_⟩
      refine ⟨blocking.openTag, ?_, rfl⟩
      rw [(openTags_span hopened hinner hname).1]
      exact innermostRequired_of_find (fun element hmem => hempty element (by simp [hopened, hmem]))
        hfind

theorem not_refusesEnd_of_closeElement {builder builder' : Builder} {name : Text}
    (h : builder.closeElement name = .ok builder') (cause : Fault.Cause) :
    ¬ RefusesEnd builder.openTags name cause := by
  obtain ⟨inner, matching, outer, hopened, hinner, hname, hoptional, -⟩ := closeElement_eq_ok h
  intro hrefuses
  have hmatching : matching.openTag ∈ builder.openTags := by simp [openTags, hopened]
  obtain ⟨blocking, ⟨inside, around, hinside, -, hrequired⟩, -⟩ :=
    hrefuses.mismatched ⟨_, hmatching, hname⟩
  rw [(openTags_span hopened hinner hname).1] at hinside
  have hblocking : blocking ∈ inner.map OpenElement.openTag := by simp [hinside]
  obtain ⟨element, helement, rfl⟩ := List.mem_map.mp hblocking
  have hclosed : isOptionalEnd element.openTag.tag.name = false := (isRequired_iff.mp hrequired).2
  exact absurd (hoptional element helement) (by simpa [OpenElement.openTag] using hclosed)

theorem endsFit_of_run {tokens : List Placed} {builder : Builder}
    (h : tokens.foldlM add empty = .ok builder) : EndsFit tokens := by
  rintro before name position after rfl hvoid cause
  -- The run goes on behind the end tag, so the end tag has been taken.
  rw [← List.singleton_append, ← List.append_assoc] at h
  obtain ⟨behind, hbehind, -⟩ := exists_of_append h
  obtain ⟨builder', hrun, hadd⟩ := exists_of_concat hbehind
  rw [add_closeTag, hvoid] at hadd
  rw [← openTags_of_run hrun]
  exact not_refusesEnd_of_closeElement (mapError_eq_ok hadd) cause

theorem refused_of_run {stream : TokenStream} {fault : Fault}
    (h : stream.tokens.foldlM add empty = .error fault) : Refused stream fault := by
  obtain ⟨before, ⟨token, position⟩, after, builder, hsplit, hrun, hadd⟩ := exists_of_run_error h
  cases token with
  | leaf l => cases hadd
  | openTag tag => cases hadd
  | closeTag name =>
    rw [add_closeTag] at hadd
    cases hvoid : isVoid name with
    | true =>
      rw [hvoid] at hadd
      cases hadd
    | false =>
      cases hclose : builder.closeElement name with
      | ok builder' =>
        rw [hvoid, hclose] at hadd
        cases hadd
      | error cause =>
        rw [hvoid, hclose] at hadd
        cases hadd
        have hrefuses := refusesEnd_of_closeElement (not_isEmpty_of_run hrun) hclose
        rw [openTags_of_run hrun] at hrefuses
        exact .atEndTag hsplit (endsFit_of_run hrun) hvoid hrefuses

theorem refused_of_finish {stream : TokenStream} {builder : Builder} {fault : Fault}
    (hread : stream.fault = none) (hrun : stream.tokens.foldlM add empty = .ok builder)
    (h : builder.finish = .error fault) : Refused stream fault := by
  unfold finish at h
  split at h
  · rename_i element hfind
    cases h
    have hinnermost := innermostRequired_of_find (not_isEmpty_of_run hrun) hfind
    change InnermostRequired builder.openTags element.openTag at hinnermost
    rw [openTags_of_run hrun] at hinnermost
    exact .atEnd (endsFit_of_run hrun) hread hinnermost
  · cases h

end Builder

namespace Forest

/-- What is accepted nests but for elements that need no end tag; without such elements, all that nests
is accepted; and what is refused is refused at the first end tag that does not fit, or else at its end. -/
theorem ofTokens_verdict (stream : TokenStream) :
    ((∃ forest, ofTokens stream = .ok forest) → Mark.Nested (requiredMarks stream.tokens)) ∧
      ((∀ placed ∈ stream.tokens, placed.token.isOptional = false) →
        ((∃ forest, ofTokens stream = .ok forest) ↔
          stream.fault = none ∧ Mark.Nested (requiredMarks stream.tokens))) ∧
      ∀ fault, ofTokens stream = .error fault → Refused stream fault := by
  have accepted : (∃ forest, ofTokens stream = .ok forest) →
      stream.fault = none ∧ Mark.Nested (requiredMarks stream.tokens) := by
    rintro ⟨forest, h⟩
    obtain ⟨builder, hrun, hread, hfinish⟩ := Builder.ofTokens_eq_ok_iff.mp h
    exact ⟨hread, Builder.nested_of_finish hrun hfinish⟩
  refine ⟨fun h => (accepted h).2, fun hplain => ⟨accepted, ?_⟩, ?_⟩
  · rintro ⟨hread, hnested⟩
    exact Builder.exists_forest_of_nested hread hplain hnested
  · intro fault h
    rcases Builder.ofTokens_eq_error h with hfail | ⟨builder, hrun, hunread | ⟨hread, hfinish⟩⟩
    · exact Builder.refused_of_run hfail
    · exact .unread (Builder.endsFit_of_run hrun) hunread
    · exact Builder.refused_of_finish hread hrun hfinish

/-- The items of a list need no end tags, and an element in a division does. -/
theorem verdict_list_and_division :
    (∃ forest, ofTokens (.ofSource "<ul><li>a<li>b</ul>") = .ok forest) ∧
      Mark.Nested (requiredMarks (TokenStream.ofSource "<ul><li>a<li>b</ul>").tokens) ∧
      (∃ forest, ofTokens (.ofSource "<div><b></b></div>") = .ok forest) ∧
      ofTokens (.ofSource "<div><b></div>") = .error ⟨.mismatchedClose "</b>" "</div>", ⟨8, 1⟩⟩ ∧
      Refused (.ofSource "<div><b></div>") ⟨.mismatchedClose "</b>" "</div>", ⟨8, 1⟩⟩ := by
  have hlist : ofTokens (.ofSource "<ul><li>a<li>b</ul>") =
      .ok (element ⟨"ul", [], false⟩ ⟨0, 1⟩
        (element ⟨"li", [], false⟩ ⟨4, 1⟩ (leaf (.text "a") ⟨8, 1⟩ nil)
          (element ⟨"li", [], false⟩ ⟨9, 1⟩ (leaf (.text "b") ⟨13, 1⟩ nil) nil)) nil) := by
    decide +kernel
  have hdivision : requiredMarks (TokenStream.ofSource "<div><b></b></div>").tokens =
      [.opening "div", .opening "b", .closing "b", .closing "div"] := by
    decide +kernel
  have hplain : ∀ placed ∈ (TokenStream.ofSource "<div><b></b></div>").tokens,
      placed.token.isOptional = false := by
    decide +kernel
  have hread : (TokenStream.ofSource "<div><b></b></div>").fault = none := by decide +kernel
  have hrefused : ofTokens (.ofSource "<div><b></div>") =
      .error ⟨.mismatchedClose "</b>" "</div>", ⟨8, 1⟩⟩ := by
    decide +kernel
  refine ⟨⟨_, hlist⟩, (ofTokens_verdict _).1 ⟨_, hlist⟩, ?_, hrefused,
    (ofTokens_verdict _).2.2 _ hrefused⟩
  refine ((ofTokens_verdict _).2.1 hplain).mpr ⟨hread, ?_⟩
  rw [hdivision]
  exact Mark.nested_iff.mpr rfl

end Forest

end Phrasebook.Markup
