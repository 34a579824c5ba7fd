import Phrasebook.Proofs.Markup.Place
import Phrasebook.Proofs.Markup.RoundTrip

/-!
# The slash of a start tag

The inside of a start tag is cut into attributes and the characters between them. A tag is taken for one
without content if its last character, blanks aside, is a slash, whichever of the two that slash is in.
So a value without quotes may end in the slash that closes its tag, and then what stands behind the tag
is not inside the element.
-/

namespace Phrasebook.Markup

open Text Piece

/-! ## The parts of a tag -/

namespace Attribute

/-- A part of what stands behind the name of a tag. -/
inductive Part where
  /-- A character that belongs to no attribute. -/
  | skipped (c : Char)
  | bare (name : Text)
  /-- An attribute with a value, with the blanks and the equals sign between them. -/
  | valued (name between : Text) (quote : Option Char) (value : Text)
  deriving DecidableEq, Repr

namespace Part

def text : Part → Text
  | skipped c => [c]
  | bare name => name
  | valued name between quote value => name ++ between ++ quote.toList ++ value ++ quote.toList

def attribute? : Part → Option Attribute
  | skipped _ => none
  | bare name => some ⟨lower name, none⟩
  | valued name _ _ value => some ⟨lower name, some value⟩

/-- What is known of the last characters of a part. -/
def Legal : Part → Prop
  | skipped _ => True
  | bare name => name ≠ [] ∧ ∀ c ∈ name, isAttributeNamePart c = true
  | valued _ _ (some quote) _ => quote = '"' ∨ quote = '\''
  | valued _ _ none value => value ≠ [] ∧ ∀ c ∈ value, isBareValuePart c = true

def isSkippedBlank : Part → Bool
  | skipped c => isBlank c
  | _ => false

end Part

def openingQuote? : Text → Option Char
  | '"' :: _ => some '"'
  | '\'' :: _ => some '\''
  | _ => none

/-- The text behind the equals sign and the blanks around it. -/
def assigned (behind : Text) : Text := trimStart ((trimStart behind).drop 1)

/-- The inside of a tag, cut as its attributes are read. -/
def parts : Text → List Part
  | [] => []
  | c :: rest =>
    if isAttributeNamePart c then
      let name := c :: rest.takeWhile isAttributeNamePart
      let behind := rest.drop (rest.takeWhile isAttributeNamePart).length
      match _h : readAssignment? behind with
      | some (value, later) =>
        .valued name (behind.take (behind.length - (assigned behind).length))
          (openingQuote? (assigned behind)) value :: parts later
      | none => .bare name :: parts behind
    else .skipped c :: parts rest
  termination_by text => text.length
  decreasing_by
    · have := length_lt_of_readAssignment? ‹_›
      simp only [behind, List.length_drop, List.length_cons] at this ⊢; omega
    · simp only [List.length_drop, List.length_cons]; omega
    · simp

theorem takeWhile_append_drop (found : Char → Bool) (text : Text) :
    text.takeWhile found ++ text.drop (text.takeWhile found).length = text :=
  List.prefix_iff_eq_append.mp (List.takeWhile_prefix found)

theorem readValue?_eq_some {text value later : Text} (h : readValue? text = some (value, later)) :
    text = (openingQuote? text).toList ++ value ++ (openingQuote? text).toList ++ later ∧
      (openingQuote? text = none → value ≠ [] ∧ ∀ c ∈ value, isBareValuePart c = true) := by
  unfold readValue? at h
  split at h
  · obtain ⟨rfl, -⟩ := split?_eq_some_iff.mp h
    simp [openingQuote?]
  · obtain ⟨rfl, -⟩ := split?_eq_some_iff.mp h
    simp [openingQuote?]
  · rename_i hdouble hsingle
    have hnone : openingQuote? text = none := by
      rw [openingQuote?]
      · exact hdouble
      · exact hsingle
    simp only at h
    split at h
    · cases h
    · rename_i hne
      cases h
      refine ⟨?_, fun _ => ⟨hne, List.all_eq_true.mp List.all_takeWhile⟩⟩
      simpa [hnone] using (takeWhile_append_drop isBareValuePart text).symm

theorem readAssignment?_eq_some {behind value later : Text}
    (h : readAssignment? behind = some (value, later)) :
    behind = behind.take (behind.length - (assigned behind).length) ++
        (openingQuote? (assigned behind)).toList ++ value ++
        (openingQuote? (assigned behind)).toList ++ later ∧
      (openingQuote? (assigned behind) = none →
        value ≠ [] ∧ ∀ c ∈ value, isBareValuePart c = true) := by
  have hsuffix : assigned behind <:+ behind :=
    (List.dropWhile_suffix _).trans ((List.drop_suffix 1 _).trans (List.dropWhile_suffix _))
  have hread : readValue? (assigned behind) = some (value, later) := by
    unfold readAssignment? at h
    unfold assigned
    split at h
    · rename_i heq
      rw [heq]
      exact h
    · cases h
  obtain ⟨htext, hbare⟩ := readValue?_eq_some hread
  refine ⟨?_, hbare⟩
  have hcut := List.take_append_drop (behind.length - (assigned behind).length) behind
  rw [← List.suffix_iff_eq_drop.mp hsuffix] at hcut
  rw [List.append_assoc, List.append_assoc, List.append_assoc, ← List.append_assoc value,
    ← List.append_assoc _ (value ++ _), ← List.append_assoc _ value, ← htext, hcut]

theorem eq_quote_of_openingQuote? {text : Text} {quote : Char} (h : openingQuote? text = some quote) :
    quote = '"' ∨ quote = '\'' := by
  unfold openingQuote? at h
  split at h <;> cases h <;> simp

/-! ## What the parts are -/

theorem flatMap_text_parts (text : Text) : (parts text).flatMap Part.text = text := by
  fun_induction parts text with
  | case1 => rfl
  | case2 c rest hc name behind value later heq ih =>
    rw [List.flatMap_cons, ih, Part.text]
    have hname : name ++ behind = c :: rest :=
      congrArg (c :: ·) (takeWhile_append_drop isAttributeNamePart rest)
    have hbehind := (readAssignment?_eq_some heq).1
    rw [← hname]
    conv_rhs => rw [hbehind]
    simp only [List.append_assoc]
  | case3 c rest hc name behind heq ih =>
    rw [List.flatMap_cons, ih, Part.text]
    exact congrArg (c :: ·) (takeWhile_append_drop isAttributeNamePart rest)
  | case4 c rest hc ih =>
    rw [List.flatMap_cons, ih]
    rfl

/-- The attributes among the parts are those that are read. -/
theorem filterMap_attribute?_parts (text : Text) :
    (parts text).filterMap Part.attribute? = readAll text := by
  fun_induction parts text with
  | case1 => rw [readAll, List.filterMap_nil]
  | case2 c rest hc name behind value later heq ih =>
    rw [readAll, if_pos hc]
    simp only
    split
    · rename_i heq'
      cases heq.symm.trans heq'
      rw [List.filterMap_cons, ih]
      rfl
    · rename_i heq'
      cases heq.symm.trans heq'
  | case3 c rest hc name behind heq ih =>
    rw [readAll, if_pos hc]
    simp only
    split
    · rename_i heq'
      cases heq.symm.trans heq'
    · rw [List.filterMap_cons, ih]
      rfl
  | case4 c rest hc ih => rw [readAll, if_neg hc, List.filterMap_cons_none rfl, ih]

theorem legal_of_mem_parts (text : Text) : ∀ part ∈ parts text, part.Legal := by
  fun_induction parts text with
  | case1 => simp
  | case2 c rest hc name behind value later heq ih =>
    refine List.forall_mem_cons.mpr ⟨?_, ih⟩
    cases hquote : openingQuote? (assigned behind) with
    | none => exact (readAssignment?_eq_some heq).2 hquote
    | some quote => exact eq_quote_of_openingQuote? hquote
  | case3 c rest hc name behind heq ih =>
    refine List.forall_mem_cons.mpr ⟨⟨by simp [name], ?_⟩, ih⟩
    exact List.forall_mem_cons.mpr ⟨hc, List.all_eq_true.mp List.all_takeWhile⟩
  | case4 c rest hc ih => exact List.forall_mem_cons.mpr ⟨trivial, ih⟩

/-! ## The last part -/

/-- The last part that is no blank. -/
def ending (parts : List Part) : Option Part := parts.reverse.find? fun part => !part.isSkippedBlank

/-- The last character, blanks aside, is a slash that belongs to no attribute. -/
def EndsInSlash (body : Text) : Prop := ending (parts body) = some (.skipped '/')

/-- The last character, blanks aside, is a slash, and it is the last of a value without quotes. -/
def EndsInValueSlash (body : Text) : Prop :=
  ∃ name between value, ending (parts body) = some (.valued name between none (value ++ ['/']))

theorem exists_text_concat {part : Part} (h : part.Legal) (hblank : part.isSkippedBlank = false) :
    ∃ front c, part.text = front ++ [c] ∧ isBlank c = false := by
  cases part with
  | skipped c => exact ⟨[], c, rfl, hblank⟩
  | bare name =>
    obtain ⟨hne, hpart⟩ := h
    refine ⟨name.dropLast, name.getLast hne, (List.dropLast_concat_getLast hne).symm, ?_⟩
    exact (ne_of_isAttributeNamePart (hpart _ (List.getLast_mem hne))).1
  | valued name between quote value =>
    cases quote with
    | some quote =>
      refine ⟨name ++ between ++ [quote] ++ value, quote, rfl, ?_⟩
      rcases h with rfl | rfl <;> decide
    | none =>
      obtain ⟨hne, hpart⟩ := h
      refine ⟨name ++ between ++ value.dropLast, value.getLast hne, ?_, ?_⟩
      · simp [Part.text, List.dropLast_concat_getLast hne]
      · have := hpart _ (List.getLast_mem hne)
        simp only [isBareValuePart, Bool.not_eq_true', Bool.or_eq_false_iff] at this
        exact this.1

theorem ending_concat (parts : List Part) (part : Part) :
    ending (parts ++ [part]) = if part.isSkippedBlank then ending parts else some part := by
  unfold ending
  rw [List.reverse_append, List.reverse_singleton, List.singleton_append, List.find?_cons]
  cases part.isSkippedBlank <;> rfl

theorem getLast?_trimEnd_parts {parts : List Part} (h : ∀ part ∈ parts, part.Legal) :
    (trimEnd (parts.flatMap Part.text)).getLast? =
      (ending parts).bind fun part => part.text.getLast? := by
  induction parts using List.reverseRecOn with
  | nil => rfl
  | append_singleton parts part ih =>
    obtain ⟨hparts, hpart⟩ := List.forall_mem_append.mp h
    rw [List.flatMap_append, List.flatMap_singleton, ending_concat]
    cases hblank : part.isSkippedBlank with
    | true =>
      rw [if_pos rfl, ← ih hparts]
      cases part with
      | skipped c => rw [Part.text, trimEnd_append_blank hblank]
      | bare name => cases hblank
      | valued name between quote value => cases hblank
    | false =>
      obtain ⟨front, c, htext, hc⟩ := exists_text_concat (hpart part (by simp)) hblank
      rw [htext, ← List.append_assoc, getLast?_trimEnd_append hc]
      simp [htext]

theorem getLast?_eq_slash_iff {part : Part} (h : part.Legal) :
    part.text.getLast? = some '/' ↔
      part = .skipped '/' ∨ ∃ name between value, part = .valued name between none (value ++ ['/']) := by
  cases part with
  | skipped c => simp [Part.text]
  | bare name =>
    obtain ⟨hne, hpart⟩ := h
    have hlast := (ne_of_isAttributeNamePart (hpart _ (List.getLast_mem hne))).2.2.2.2.1
    simpa [Part.text, List.getLast?_eq_some_getLast hne] using hlast
  | valued name between quote value =>
    cases quote with
    | some quote =>
      have htext : (Part.valued name between (some quote) value).text =
          (name ++ between ++ [quote] ++ value) ++ [quote] := rfl
      rw [htext, List.getLast?_concat]
      rcases h with rfl | rfl <;> simp
    | none =>
      obtain ⟨before, c, rfl⟩ := (List.eq_nil_or_concat value).resolve_left h.1
      simp [Part.text]

/-- The flag of a tag is a matter of its last character alone. -/
theorem selfClosing_iff (body : Text) :
    (trimEnd body).getLast? = some '/' ↔ EndsInSlash body ∨ EndsInValueSlash body := by
  have hlegal := legal_of_mem_parts body
  have hlast := getLast?_trimEnd_parts hlegal
  rw [flatMap_text_parts] at hlast
  rw [hlast, Option.bind_eq_some_iff]
  unfold EndsInSlash EndsInValueSlash
  constructor
  · rintro ⟨part, hending, hslash⟩
    have hmem : part ∈ parts body := List.mem_reverse.mp (List.mem_of_find?_eq_some hending)
    rw [hending]
    simpa using (getLast?_eq_slash_iff (hlegal part hmem)).mp hslash
  · rintro (hending | ⟨name, between, value, hending⟩)
    · exact ⟨_, hending, rfl⟩
    · exact ⟨_, hending, by simp [Part.text]⟩

end Attribute

open Attribute

/-! ## Start tags of a page -/

/-- How a start tag is written at its place: its name, and its attributes with what is between them. -/
structure Tag.IsCut (tag : Tag) (source : Text) (position : Position) (name body : Text) : Prop where
  written : ∃ behind, position.PointsAt source ("<" ++ name ++ body ++ ">" ++ behind)
  /-- The bracket is the first one outside quotes. -/
  ends : TagText (name ++ body)
  named : tag.name = lower name
  whole : (parts body).flatMap Part.text = body
  attributes : tag.attributes = (parts body).filterMap Part.attribute?
  /-- The first case is the one that the flag is for. In the second the slash is counted twice. -/
  flag : tag.selfClosing = true ↔ EndsInSlash body ∨ EndsInValueSlash body

theorem isCut_of_mem {source : Text} {tag : Tag} {position : Position}
    (h : ⟨.openTag tag, position⟩ ∈ (TokenStream.ofSource source).tokens) :
    ∃ name body, tag.IsCut source position name body := by
  obtain ⟨raw, text, behind, hspells, hpoints⟩ := (isAt_of_ofSource source).1 _ h
  cases hspells with
  | @openTag c inside letter ends =>
    let name := (c :: inside).takeWhile isTagNamePart
    let body := (c :: inside).drop name.length
    have hcut : name ++ body = c :: inside := takeWhile_append_drop isTagNamePart _
    have hpoints' : position.PointsAt source ("<" ++ name ++ body ++ ">" ++ behind) := by
      rw [← hcut] at hpoints
      simpa using hpoints
    have hflag : (Tag.read (c :: inside)).selfClosing = true ↔
        EndsInSlash body ∨ EndsInValueSlash body := by
      rw [← selfClosing_iff]
      simp [Tag.read, body, name]
    exact ⟨name, body, ⟨behind, hpoints'⟩, hcut ▸ ends, rfl, flatMap_text_parts body,
      (filterMap_attribute?_parts body).symm, hflag⟩

/-! ## A value without quotes at the end -/

/-- What can be written between the brackets without quotes: a name, and an attribute with a value. -/
structure BareTag (name attr value : Text) : Prop where
  letter : ∃ c rest, name = c :: rest ∧ c.isAlpha = true
  named : ∀ c ∈ name, isTagNamePart c = true
  attr_nonempty : attr ≠ []
  attr_named : ∀ c ∈ attr, isAttributeNamePart c = true
  value_nonempty : value ≠ []
  value_bare : ∀ c ∈ value, isBareValuePart c = true

theorem ne_of_isBareValuePart {c : Char} (h : isBareValuePart c = true) :
    isBlank c = false ∧ c ≠ '"' ∧ c ≠ '\'' ∧ c ≠ '=' ∧ c ≠ '>' := by
  simp [isBareValuePart] at h
  tauto

section

variable {name attr value : Text}

def bareInside (name attr value : Text) : Text := name ++ ' ' :: (attr ++ '=' :: value)

theorem readAssignment?_bare (hne : value ≠ []) (hbare : ∀ c ∈ value, isBareValuePart c = true) :
    readAssignment? ('=' :: value) = some (value, []) := by
  obtain ⟨c, rest, rfl⟩ := List.exists_cons_of_ne_nil hne
  obtain ⟨hblank, hdouble, hsingle, -, -⟩ := ne_of_isBareValuePart (hbare c List.mem_cons_self)
  have hstart : trimStart ('=' :: c :: rest) = '=' :: c :: rest :=
    List.dropWhile_cons_of_neg (by decide)
  have hvalue : trimStart (c :: rest) = c :: rest := List.dropWhile_cons_of_neg (by simp [hblank])
  have htake : (c :: rest).takeWhile isBareValuePart = c :: rest :=
    List.takeWhile_eq_self_iff.mpr hbare
  rw [readAssignment?, hstart]
  simp only [hvalue]
  unfold readValue?
  split
  · rename_i heq
    exact absurd (List.cons.inj heq).1 hdouble
  · rename_i heq
    exact absurd (List.cons.inj heq).1 hsingle
  · simp [htake]

/-- The slash at the end of the value is its last character, and makes the tag one without content. -/
theorem read_bareInside (h : BareTag name attr value) :
    Tag.read (bareInside name attr value) =
      ⟨lower name, [⟨lower attr, some value⟩], value.getLast? = some '/'⟩ := by
  have hstop : (' ' :: (attr ++ '=' :: value)).takeWhile isTagNamePart = [] :=
    List.takeWhile_cons_of_neg (by decide)
  have htake : (bareInside name attr value).takeWhile isTagNamePart = name := by
    rw [bareInside, List.takeWhile_append_of_pos h.named, hstop, List.append_nil]
  have hattr : readAll (' ' :: (attr ++ '=' :: value)) = [⟨lower attr, some value⟩] := by
    rw [readAll_space_name h.attr_nonempty h.attr_named (List.takeWhile_cons_of_neg (by decide)),
      readAssignment?_bare h.value_nonempty h.value_bare]
    simp [readAll]
  obtain ⟨front, c, hvalue⟩ := (List.eq_nil_or_concat value).resolve_left h.value_nonempty
  rw [List.concat_eq_append] at hvalue
  have hblank : isBlank c = false := (ne_of_isBareValuePart (h.value_bare c (by simp [hvalue]))).1
  have hlast : (trimEnd (' ' :: (attr ++ '=' :: value))).getLast? = value.getLast? := by
    have happend : ' ' :: (attr ++ '=' :: value) = (' ' :: (attr ++ '=' :: front)) ++ [c] := by
      simp [hvalue]
    rw [happend, getLast?_trimEnd_append hblank, hvalue, List.getLast?_concat]
  unfold Tag.read
  simp only [htake]
  rw [bareInside, List.drop_left, hattr, hlast]

theorem first_bareTag (h : BareTag name attr value) (tail : Text) :
    first '<' (bareInside name attr value ++ ['>'] ++ tail) =
      .ok ⟨some (.openTag ⟨lower name, [⟨lower attr, some value⟩], value.getLast? = some '/'⟩),
        (bareInside name attr value ++ ['>']).length⟩ := by
  obtain ⟨d, rest, hname, hd⟩ := h.letter
  obtain ⟨body, hbody⟩ : ∃ body, bareInside name attr value = d :: body := by
    rw [bareInside, hname]
    exact ⟨_, rfl⟩
  have hplain : ClosesQuotes (bareInside name attr value) := by
    apply closesQuotes_of_plain
    intro c hc
    simp only [bareInside, List.mem_append, List.mem_cons] at hc
    rcases hc with hc | rfl | hc | rfl | hc
    · exact ne_of_isTagNamePart (h.named c hc)
    · decide
    · obtain ⟨-, hdouble, hsingle, hbracket, -, -⟩ := ne_of_isAttributeNamePart (h.attr_named c hc)
      exact ⟨hdouble, hsingle, hbracket⟩
    · decide
    · obtain ⟨-, hdouble, hsingle, -, hbracket⟩ := ne_of_isBareValuePart (h.value_bare c hc)
      exact ⟨hdouble, hsingle, hbracket⟩
  rw [← read_bareInside h, hbody] at *
  exact first_of_closesQuotes hd hplain tail

variable {content : Text}

theorem stream_bareTag (h : BareTag name attr value) (hraw : isRawText (lower name) = false)
    (hcontent : PlainText content) :
    let start : Text := "<" ++ name ++ " " ++ attr ++ "=" ++ value ++ ">"
    TokenStream.ofSource (start ++ content ++ endTag name) =
      ⟨[⟨.openTag ⟨lower name, [⟨lower attr, some value⟩], value.getLast? = some '/'⟩, .start⟩,
        ⟨.leaf (.text content), Position.start.advance start⟩,
        ⟨.closeTag (lower name), (Position.start.advance start).advance content⟩], none⟩ := by
  intro start
  have hstart : start = '<' :: (bareInside name attr value ++ ['>']) := by
    simp [start, bareInside]
  have hnone : Reader.rawTextAfter
      (some (.openTag ⟨lower name, [⟨lower attr, some value⟩], value.getLast? = some '/'⟩)) = none :=
    if_neg (by simp [Tag.startsRawText, hraw])
  have ends : EndsText (endTag name) := .inr rfl
  obtain ⟨c, inside, rfl⟩ := List.exists_cons_of_ne_nil hcontent.1
  rw [TokenStream.ofSource, Reader.ofSource, List.append_assoc, hstart, List.cons_append,
    stream_of_first (first_bareTag h _), hnone, List.cons_append,
    stream_of_first (first_of_plainText hcontent ends)]
  simp only [Reader.rawTextAfter, stream_endTag h.named]

/-- An element with one attribute, whose value has no quotes, and a text is read as it is written unless
the value ends in a slash. Then the element has no content, and its end tag makes the page be refused. -/
theorem Forest.ofSource_bareTag (h : BareTag name attr value) (hvoid : isVoid (lower name) = false)
    (hraw : isRawText (lower name) = false) (hcontent : PlainText content) :
    let start : Text := "<" ++ name ++ " " ++ attr ++ "=" ++ value ++ ">"
    let place := Position.start.advance start
    ofSource (start ++ content ++ endTag name) =
      if value.getLast? = some '/' then
        .error ⟨.unexpectedClose (endTag (lower name)), place.advance content⟩
      else
        .ok (.element ⟨lower name, [⟨lower attr, some value⟩], false⟩ .start
          (.leaf (.text content) place .nil) .nil) := by
  intro start place
  rw [ofSource, stream_bareTag h hraw hcontent]
  split
  · rename_i hslash
    simp only [hslash, decide_true]
    apply Builder.ofTokens_of_run_error
    have hopen := Builder.add_openTag_first ⟨lower name, [⟨lower attr, some value⟩], true⟩ .start
    rw [Builder.foldlM_add_cons hopen, Builder.foldlM_add_cons rfl, List.foldlM_cons,
      Builder.add_closeTag, hvoid]
    rfl
  · rename_i hslash
    simp only [hslash, decide_false]
    have hempty : Tag.isEmpty ⟨lower name, [⟨lower attr, some value⟩], false⟩ = false := by
      simp [Tag.isEmpty, hvoid]
    have hrun : List.foldlM Builder.add
        ⟨.nil, [⟨⟨lower name, [⟨lower attr, some value⟩], false⟩, .start, .nil⟩]⟩
        [⟨.leaf (.text content), place⟩] =
        .ok ⟨.leaf (.text content) place .nil,
          [⟨⟨lower name, [⟨lower attr, some value⟩], false⟩, .start, .nil⟩]⟩ := rfl
    exact Builder.ofTokens_alone hempty hrun

end

/-- The flag of a start tag is set if and only if its last character, blanks aside, is a slash, whether
that slash stands on its own or is the last character of a value without quotes. So a page that is one
element with such a value, and a text in it, is read if the value does not end in a slash, and is refused
if it does. -/
theorem slash_of_startTag (source : Text) :
    (∀ {tag : Tag} {position : Position},
      ⟨.openTag tag, position⟩ ∈ (TokenStream.ofSource source).tokens →
        ∃ name body, tag.IsCut source position name body) ∧
    ∀ {name attr value content : Text}, BareTag name attr value → isVoid (lower name) = false →
      isRawText (lower name) = false → PlainText content →
        let start : Text := "<" ++ name ++ " " ++ attr ++ "=" ++ value ++ ">"
        let place := Position.start.advance start
        source = start ++ content ++ endTag name →
          Forest.ofSource source =
            if value.getLast? = some '/' then
              .error ⟨.unexpectedClose (endTag (lower name)), place.advance content⟩
            else
              .ok (.element ⟨lower name, [⟨lower attr, some value⟩], false⟩ .start
                (.leaf (.text content) place .nil) .nil) := by
  refine ⟨isCut_of_mem, ?_⟩
  intro name attr value content h hvoid hraw hcontent start place hsource
  rw [hsource]
  exact Forest.ofSource_bareTag h hvoid hraw hcontent

/-- An address without quotes that ends in a slash, and one that does not. -/
theorem slash_of_startTag_address :
    (∃ name body,
        Tag.IsCut ⟨"a", [⟨"href", some "x/"⟩], true⟩ "<a href=x/>y</a>" .start name body) ∧
      Forest.ofSource "<a href=x/>y</a>" = .error ⟨.unexpectedClose "</a>", ⟨12, 1⟩⟩ ∧
      Forest.ofSource "<a href=x/z>y</a>" =
        .ok (.element ⟨"a", [⟨"href", some "x/z"⟩], false⟩ .start
          (.leaf (.text "y") ⟨12, 1⟩ .nil) .nil) := by
  have hbare (value : Text) (hne : value ≠ []) (h : value.all isBareValuePart = true) :
      BareTag "a" "href" value :=
    ⟨⟨'a', [], rfl, by decide⟩, by simp [isTagNamePart], by simp,
      List.all_eq_true.mp (by decide), hne, List.all_eq_true.mp h⟩
  have hplain : PlainText "y" := Forest.plainText_iff.mpr (by decide)
  refine ⟨(slash_of_startTag _).1 (by decide +kernel), ?_, ?_⟩
  · exact (slash_of_startTag _).2 (hbare "x/" (by simp) (by decide)) (by decide) (by decide) hplain rfl
  · exact (slash_of_startTag _).2 (hbare "x/z" (by simp) (by decide)) (by decide) (by decide) hplain rfl

end Phrasebook.Markup
