import Mathlib.Data.List.Infix
import Phrasebook.Proofs.Markup.RoundTrip
import Phrasebook.Proofs.Markup.Segments

/-!
# The end of raw text

A script or a style sheet on its own. The content is one text, whatever markup stands in it, up to the
first place where `</` and the name of the element stand, in any letter case. That place is taken for
the end tag even if the name goes on there. What is read then is the end tag of an element with a longer
name, which is not open, and the page is refused.
-/

namespace Phrasebook.Markup

open Text Piece

/-! ## End tags and what looks like them -/

/-- Whether the text begins with an end tag of the element: behind the name stands a blank, a slash or
the bracket. -/
def startsEndTag (name text : Text) : Bool :=
  beginsNoCase ("</" ++ name) text &&
    (text.drop (name.length + 2)).head?.any fun c => isBlank c || c == '/' || c == '>'

section

variable {name : Text}

/-- No end tag begins in a text and ends behind it, since `<` is only the first of its characters. -/
theorem beginsNoCase_endTag_append (hname : isRawText name = true) {text : Text} (hne : text ≠ [])
    (h : beginsNoCase ("</" ++ name) text = false) (tail : Text) :
    beginsNoCase ("</" ++ name) (text ++ '<' :: tail) = false := by
  have hmark : ("</" ++ name : Text).length = name.length + 2 := rfl
  by_cases hlong : ("</" ++ name : Text).length ≤ text.length
  · rw [beginsNoCase_append hlong, h]
  · rw [Bool.eq_false_iff]
    intro hbegins
    obtain ⟨c, text, rfl⟩ := List.exists_cons_of_ne_nil hne
    obtain ⟨written, behind, hsplit, hlow⟩ := exists_of_closes hbegins
    rw [(plainName_of_isRawText hname).lowered] at hlow
    have hlength : written.length = name.length := by rw [← hlow, length_lower]
    have hshort : text.length < ('/' :: written).length := by
      simp only [List.length_cons] at hlong ⊢
      omega
    -- The `<` of the tail stands among the characters behind the first one of the end tag.
    have hin : ('/' :: written)[text.length]? = some '<' := by
      have hsame := congrArg (·[text.length]?) (List.cons.inj hsplit).2
      simp only [← List.cons_append, List.getElem?_append_left hshort] at hsame
      simp [← hsame]
    rcases List.mem_cons.mp (List.mem_of_getElem? hin) with hslash | hwritten
    · exact absurd hslash (by decide)
    · have hlower : '<' ∈ name := hlow ▸ List.mem_map_of_mem (f := Char.toLower) hwritten
      rcases eq_of_isRawText hname with rfl | rfl <;> exact absurd hlower (by decide)

theorem breakWhere?_closes_eq_none {body : Text} :
    breakWhere? (beginsNoCase ("</" ++ name)) body = none ↔
      ∀ text ∈ body.tails, beginsNoCase ("</" ++ name) text = false := by
  rw [breakWhere?_eq_none_iff]
  constructor
  · rintro ⟨hnil, hnone⟩ text htext
    obtain ⟨left, rfl⟩ := (List.mem_tails _ _).mp htext
    by_cases hne : text = []
    · rw [hne, hnil]
    · have := hnone left text rfl hne
      rwa [List.append_nil] at this
  · intro h
    refine ⟨h [] (by simp), ?_⟩
    intro left right hsplit _
    rw [List.append_nil]
    exact h right ((List.mem_tails _ _).mpr ⟨left, hsplit.symm⟩)

theorem noneInside_endTag (hname : isRawText name = true) {body : Text}
    (h : ∀ text ∈ body.tails, beginsNoCase ("</" ++ name) text = false) :
    NoneInside (beginsNoCase ("</" ++ name)) body (endTag name) := by
  intro left right hsplit hne
  exact beginsNoCase_endTag_append hname hne (h right ((List.mem_tails _ _).mpr ⟨left, hsplit.symm⟩)) _

/-! ## The tokens -/

/-- The start tag of the element, without attributes. -/
def rawTag (name : Text) : Tag := ⟨name, [], false⟩

theorem legal_rawTag (hname : isRawText name = true) : (rawTag name).Legal := by
  have hpart : name.all isTagNamePart = true := by
    rcases eq_of_isRawText hname with rfl | rfl <;> decide
  have hhead : ∃ c rest, name = c :: rest ∧ c.isAlpha = true := by
    rcases eq_of_isRawText hname with rfl | rfl <;> exact ⟨_, _, rfl, by decide⟩
  exact ⟨hhead, List.all_eq_true.mp hpart, (plainName_of_isRawText hname).lowered, by simp [rawTag]⟩

theorem isEmpty_rawTag (hname : isRawText name = true) : (rawTag name).isEmpty = false := by
  simp [rawTag, Tag.isEmpty, (special_of_isRawText hname).1]

/-- Raw text as a token; there is none for an empty one. -/
def rawTokens (content : Text) (position : Position) : List Placed :=
  if content = [] then [] else [⟨.leaf (.text content), position⟩]

theorem stream_rawTag (hname : isRawText name = true) (text : Text) (position : Position) :
    Reader.stream ⟨"<" ++ name ++ ">" ++ text, position, none⟩ =
      let later := Reader.stream ⟨text, position.advance ("<" ++ name ++ ">"), some name⟩
      ⟨⟨.openTag (rawTag name), position⟩ :: later.tokens, later.fault⟩ := by
  have hinside : (rawTag name).inside = name := by simp [rawTag, Tag.inside]
  have hraw : Reader.rawTextAfter (some (.openTag (rawTag name))) = some name := by
    rw [rawTextAfter_of_not_isEmpty (isEmpty_rawTag hname)]
    exact rawName_eq_some.mpr ⟨rfl, hname⟩
  have hread := stream_of_first (first_openTag (legal_rawTag hname) text) position
  rw [hinside, hraw] at hread
  exact hread

/-- Raw text is read up to the first end tag of its element, or what looks like one. -/
theorem stream_rawText {content behind : Text}
    (hnone : NoneInside (beginsNoCase ("</" ++ name)) content behind)
    (hcloses : beginsNoCase ("</" ++ name) behind = true) (position : Position) :
    Reader.stream ⟨content ++ behind, position, some name⟩ =
      let later := Reader.stream ⟨behind, position.advance content, none⟩
      ⟨rawTokens content position ++ later.tokens, later.fault⟩ := by
  have hstop (place : Position) :
      Reader.stream ⟨behind, place, some name⟩ = Reader.stream ⟨behind, place, none⟩ := by
    obtain ⟨written, rest, rfl, -⟩ := exists_of_closes hcloses
    rw [Reader.stream_cons, Reader.stream_cons, Reader.piece_some, rawText?_of_closes hcloses]
    rfl
  cases content with
  | nil =>
    rw [List.nil_append, hstop, Position.advance_nil]
    rfl
  | cons c inside =>
    have hpiece := rawText?_of_noneInside hnone hcloses
    rw [List.cons_append, stream_of_token (by rw [Reader.piece_some, hpiece])]
    rfl

/-- Where the name goes on behind `</`, the end tag is that of a longer name. -/
theorem closing_of_longer (hname : isRawText name = true) {written behind : Text} {c : Char}
    {piece : Piece} (hlow : lower written = name) (hc : isBlank c = false ∧ c ≠ '>')
    (h : first '<' ('/' :: (written ++ c :: behind)) = .ok piece) :
    ∃ longer, piece.token = some (.closeTag (name ++ c.toLower :: longer)) := by
  have hplain := plainName_of_isRawText hname
  have hmem : ∀ d ∈ written, d.toLower ∈ name := fun d hd => hlow ▸ List.mem_map_of_mem hd
  obtain ⟨inside, hinside, rfl⟩ := tagInside?_of_tag h
  have hwritten : ∀ d ∈ '/' :: written, d ≠ '"' ∧ d ≠ '\'' ∧ d ≠ '>' :=
    List.forall_mem_cons.mpr ⟨by decide, fun d hd => hplain.plain d (hmem d hd)⟩
  -- The tag holds the character behind the name too, which may be a quote.
  rw [← List.cons_append, closesQuotes_of_plain hwritten, tagInside?] at hinside
  simp only [if_neg hc.2, Option.map_map] at hinside
  obtain ⟨more, -, rfl⟩ := Option.map_eq_some_iff.mp hinside
  have hsolid : ∀ d ∈ written ++ [c], isBlank d = false := by
    intro d hd
    rcases List.mem_append.mp hd with hd | hd
    · rw [← isBlank_toLower]
      exact hplain.solid _ (hmem d hd)
    · rw [List.mem_singleton.mp hd, hc.1]
  obtain ⟨longer, hlonger⟩ := prefix_trim hsolid (List.prefix_append (written ++ [c]) more)
  refine ⟨lower longer, ?_⟩
  have hdrop : List.drop 1 ('/' :: written ++ c :: more) = written ++ [c] ++ more := by simp
  simp only [Function.comp_apply, hdrop, ← hlonger, lower_append, hlow]
  simp

end

/-! ## The page -/

/-- A text, unless it is empty. -/
def Forest.rawContent (content : Text) (position : Position) : Forest :=
  if content = [] then .nil else .leaf (.text content) position .nil

namespace Builder

theorem foldlM_rawTokens (content : Text) (position : Position) (opened : List OpenElement) :
    (rawTokens content position).foldlM add ⟨.nil, opened⟩ =
      .ok ⟨.rawContent content position, opened⟩ := by
  unfold rawTokens Forest.rawContent
  split <;> rfl

/-- An end tag with a longer name than the only open element closes nothing. -/
theorem add_closeTag_longer {name : Text} (hname : isRawText name = true) (c : Char) (longer : Text)
    (finished : Forest) (position position' : Position) :
    add ⟨finished, [⟨rawTag name, position, .nil⟩]⟩ ⟨.closeTag (name ++ c :: longer), position'⟩ =
      .error ⟨.unexpectedClose (endTag (name ++ c :: longer)), position'⟩ := by
  have hvoid : isVoid (name ++ c :: longer) = false :=
    not_isVoid_of_prefix hname (List.prefix_append name _)
  rw [add_closeTag, hvoid]
  simp [closeElement, List.findIdx?_cons, rawTag, Except.mapError]

end Builder

namespace Forest

/-- The element and its content, where a page begins with its start tag. -/
def rawElement (name content : Text) : Forest :=
  .element (rawTag name) .start
    (rawContent content (Position.start.advance ("<" ++ name ++ ">"))) .nil

section

variable {name : Text}

theorem ofSource_of_noneInside (hname : isRawText name = true) {body : Text}
    (h : ∀ text ∈ body.tails, beginsNoCase ("</" ++ name) text = false) :
    ofSource ("<" ++ name ++ ">" ++ (body ++ endTag name)) = .ok (rawElement name body) := by
  have hcloses : beginsNoCase ("</" ++ name) (endTag name) = true := by
    simpa using beginsNoCase_endTag name []
  have hrun := Builder.foldlM_rawTokens body (Position.start.advance ("<" ++ name ++ ">"))
    [⟨rawTag name, .start, .nil⟩]
  have hend (position : Position) : Reader.stream ⟨endTag name, position, none⟩ =
      ⟨[⟨.closeTag name, position⟩], none⟩ := by
    have hpart : ∀ c ∈ name, isTagNamePart c = true := (legal_rawTag hname).part
    rw [stream_endTag hpart, (plainName_of_isRawText hname).lowered]
  rw [ofSource, TokenStream.ofSource, Reader.ofSource, stream_rawTag hname,
    stream_rawText (noneInside_endTag hname h) hcloses]
  simp only [hend]
  refine (Builder.ofTokens_alone (isEmpty_rawTag hname) hrun).trans ?_
  unfold rawElement rawContent
  split <;> rfl

/-- Where raw text stops at a longer name, the page is refused. -/
theorem ofSource_of_longer (hname : isRawText name = true) {before written behind : Text} {c : Char}
    (hnone : NoneInside (beginsNoCase ("</" ++ name)) before ('<' :: '/' :: (written ++ c :: behind)))
    (hlow : lower written = name) (hc : isBlank c = false ∧ c ≠ '>') :
    ∃ fault,
      ofSource ("<" ++ name ++ ">" ++ (before ++ '<' :: '/' :: (written ++ c :: behind))) =
          .error fault ∧
        (fault.cause = .unterminatedTag ∨
          ∃ d longer, fault.cause = .unexpectedClose (endTag (name ++ d :: longer))) := by
  have hcloses : beginsNoCase ("</" ++ name) ('<' :: '/' :: (written ++ c :: behind)) = true := by
    simp [beginsNoCase, sameName, ← hlow]
  let opened : List OpenElement := [⟨rawTag name, .start, .nil⟩]
  have hopen : Builder.add .empty ⟨.openTag (rawTag name), .start⟩ = .ok ⟨.nil, opened⟩ := by
    rw [Builder.add_openTag_first, isEmpty_rawTag hname]
    rfl
  let place := Position.start.advance ("<" ++ name ++ ">")
  have hrun (later : List Placed) :
      (⟨.openTag (rawTag name), .start⟩ :: (rawTokens before place ++ later)).foldlM Builder.add
        Builder.empty = later.foldlM Builder.add ⟨rawContent before place, opened⟩ := by
    rw [Builder.foldlM_add_cons hopen]
    exact Builder.foldlM_add_append (Builder.foldlM_rawTokens before place opened) later
  rw [ofSource, TokenStream.ofSource, Reader.ofSource, stream_rawTag hname,
    stream_rawText hnone hcloses, Reader.stream_cons, Reader.piece_none]
  cases hfirst : first '<' ('/' :: (written ++ c :: behind)) with
  | error cause =>
    have hfault := hrun []
    exact ⟨⟨cause, place.advance before⟩, Builder.ofTokens_of_fault hfault rfl,
      .inl (endless_of_tag hfirst).2⟩
  | ok piece =>
    obtain ⟨longer, htoken⟩ := closing_of_longer hname hlow hc hfirst
    simp only [htoken]
    refine ⟨⟨.unexpectedClose (endTag (name ++ c.toLower :: longer)), place.advance before⟩,
      Builder.ofTokens_of_run_error ?_, .inr ⟨c.toLower, longer, rfl⟩⟩
    rw [hrun, List.foldlM_cons, Builder.add_closeTag_longer hname]
    rfl

/-- The text of an element with raw text holds no end tag, nor what looks like one. -/
theorem beginsNoCase_of_ofSource {body page : Text} (h : ofSource page = .ok (rawElement name body))
    (hname : isRawText name = true) :
    ∀ text ∈ body.tails, beginsNoCase ("</" ++ name) text = false := by
  obtain ⟨-, -, -, -, hlegal, -⟩ := legal_of_ofSource h
  intro text htext
  rw [Bool.eq_false_iff]
  intro hbegins
  obtain ⟨left, rfl⟩ := (List.mem_tails _ _).mp htext
  have hne : text ≠ [] := by
    rintro rfl
    cases hbegins
  rcases Legal.raw_cases hname hlegal with hnil | ⟨content, position, hleaf, hraw⟩
  · simp [rawContent, hne] at hnil
  · rw [rawContent, if_neg (by simp [hne])] at hleaf
    cases hleaf
    have hlater := hraw.2 left text rfl hne
    rw [beginsNoCase_append (length_le_of_beginsNoCase hbegins), hbegins] at hlater
    cases hlater

/-- A script or a style sheet on its own is read with its whole body as one text if and only if nowhere
in the body stands `</` and its name, in any letter case. If no end tag stands there either, and none
is cut off at the end, what looks like one makes the page be refused. -/
theorem ofSource_rawText (hname : isRawText name = true) (body : Text) :
    (ofSource ("<" ++ name ++ ">" ++ body ++ endTag name) = .ok (rawElement name body) ↔
        ∀ text ∈ body.tails, beginsNoCase ("</" ++ name) text = false) ∧
      ((∀ text ∈ body.tails, startsEndTag name text = false ∧ sameName ("</" ++ name) text = false) →
        (∃ text ∈ body.tails, beginsNoCase ("</" ++ name) text = true) →
        ∃ fault, ofSource ("<" ++ name ++ ">" ++ body ++ endTag name) = .error fault ∧
          (fault.cause = .unterminatedTag ∨
            ∃ c longer, fault.cause = .unexpectedClose (endTag (name ++ c :: longer)))) := by
  refine ⟨⟨fun h => beginsNoCase_of_ofSource h hname, fun h => ?_⟩, ?_⟩
  · rw [List.append_assoc]
    exact ofSource_of_noneInside hname h
  rintro hfree ⟨text, htext, hbegins⟩
  -- The first place that looks like an end tag decides.
  cases hbreak : breakWhere? (beginsNoCase ("</" ++ name)) body with
  | none =>
    rw [breakWhere?_closes_eq_none.mp hbreak text htext] at hbegins
    cases hbegins
  | some cut =>
    obtain ⟨before, place⟩ := cut
    obtain ⟨rfl, hplace, hnone⟩ := breakWhere?_eq_some_iff.mp hbreak
    have hlength := length_le_of_beginsNoCase hplace
    obtain ⟨written, rest, rfl, hlow⟩ := exists_of_closes hplace
    rw [(plainName_of_isRawText hname).lowered] at hlow
    obtain ⟨hopen, hsame⟩ := hfree _ ((List.mem_tails _ _).mpr (List.suffix_append before _))
    have hwritten : written.length = name.length := by rw [← hlow, length_lower]
    cases rest with
    | nil => simp [sameName, ← hlow] at hsame
    | cons c more =>
      have hc : isBlank c = false ∧ c ≠ '>' := by
        rw [startsEndTag, hplace] at hopen
        simp [← hwritten] at hopen
        exact ⟨hopen.1.1, hopen.2⟩
      have hlater : NoneInside (beginsNoCase ("</" ++ name)) before
          ('<' :: '/' :: (written ++ c :: (more ++ endTag name))) := by
        intro left right hsplit hne
        have hearly := hnone left right hsplit hne
        have hroom := hlength.trans (List.suffix_append right _).length_le
        rw [← beginsNoCase_append hroom (endTag name)] at hearly
        simpa using hearly
      simpa using ofSource_of_longer hname hlater hlow hc

/-- Tags, comments, server code and the end tag of another element are text in a script. One longer name
and the script is refused. -/
theorem ofSource_rawText_script :
    let script : Text := "<p>x < '</style>' <!-- <?php </scrip"
    ofSource ("<script>" ++ script ++ "</script>") = .ok (rawElement "script" script) ∧
      ∃ fault, ofSource "<script>x=\"</scripty>\"</script>" = .error fault := by
  intro script
  have hname : isRawText "script" = true := by decide
  refine ⟨((ofSource_rawText hname script).1.mpr (by decide +kernel)), ?_⟩
  obtain ⟨fault, hfault, -⟩ := (ofSource_rawText hname "x=\"</scripty>\"").2 (by decide +kernel)
    ⟨"</scripty>\"", by decide +kernel, by decide +kernel⟩
  exact ⟨fault, hfault⟩

end

end Forest

end Phrasebook.Markup
