import Phrasebook.Proofs.Markup.TokenStream

/-!
# The segments of a page

A page is cut into segments, one behind the other. Each is a declaration, which is passed over, or is
spelled as the token that is read from it: so a reader of tokens drops nothing and repeats nothing, and
the place of a token is the end of all that stands before it.
-/

namespace Phrasebook.Markup

open Text Piece

/-! ## Spelling -/

/-- A part of a page, and the token that it is read as. -/
structure Segment where
  text : Text
  token : Option Token
  deriving DecidableEq, Repr

/-- Text that a tag can have inside: every `>` in it is in quotes, and every quote is closed. -/
inductive TagText : Text → Prop where
  | nil : TagText []
  | plain {c : Char} {rest : Text} (hc : c ≠ '"' ∧ c ≠ '\'' ∧ c ≠ '>') (h : TagText rest) :
    TagText (c :: rest)
  | quoted {q : Char} {value rest : Text} (hq : q = '"' ∨ q = '\'') (hv : q ∉ value)
    (h : TagText rest) : TagText (q :: (value ++ q :: rest))

/-- Whether a `<` before this character begins markup. The letters are those of ASCII, as in names. -/
def OpensMarkup (c : Char) : Prop := c.isAlpha = true ∨ c = '/' ∨ c = '!' ∨ c = '?'

/-- How a segment with this token is written, where `raw` is the element whose raw text begins and
`behind` follows the segment. -/
inductive Spells (raw : Option Text) (behind : Text) : Text → Option Token → Prop where
  | declaration {inside : Text} (ends : '>' ∉ inside) (comment : ¬ "--".toList <+: inside) :
    Spells raw behind ("<!" ++ inside ++ ">") none
  | xmlDeclaration {inside : Text} (xml : isXmlDeclaration inside = true)
    (ends : ¬ "?>".toList <:+: inside) : Spells raw behind ("<?" ++ inside ++ "?>") none
  | serverCode {code : Text} (xml : isXmlDeclaration code = false) (ends : ¬ "?>".toList <:+: code) :
    Spells raw behind ("<?" ++ code ++ "?>") (some (.leaf (.serverCode code)))
  | comment {content : Text} (ends : ¬ "-->".toList <:+: content) :
    Spells raw behind ("<!--" ++ content ++ "-->") (some (.leaf (.comment content)))
  | openTag {c : Char} {inside : Text} (letter : c.isAlpha = true) (ends : TagText (c :: inside)) :
    Spells raw behind ("<" ++ c :: inside ++ ">") (some (.openTag (.read (c :: inside))))
  | closeTag {inside : Text} (ends : TagText inside) :
    Spells raw behind ("</" ++ inside ++ ">") (some (.closeTag (lower (trim inside))))
  | text {content : Text} (ordinary : raw = none) (nonempty : content ≠ [])
    (plain : ∀ c, ['<', c] <:+: content → ¬ OpensMarkup c)
    (stops : behind = [] ∨ ∃ c later, behind = '<' :: c :: later ∧ OpensMarkup c) :
    Spells raw behind content (some (.leaf (.text content)))
  /-- Raw text may hold any markup but the end tag of its element. -/
  | rawText {name content : Text} (within : raw = some name) (nonempty : content ≠ [])
    (plain : ∀ left right, content = left ++ right → beginsNoCase ("</" ++ name) right = false)
    (stops : behind = [] ∨ beginsNoCase ("</" ++ name) behind = true) :
    Spells raw behind content (some (.leaf (.text content)))

/-- Markup that has no end, and the fault that this is. -/
inductive Unterminated : Text → Fault.Cause → Prop where
  | comment {body : Text} (endless : ¬ "-->".toList <:+: body) :
    Unterminated ("<!--" ++ body) .unterminatedComment
  | instruction {body : Text} (endless : ¬ "?>".toList <:+: body) :
    Unterminated ("<?" ++ body) .unterminatedInstruction
  | declaration {body : Text} (endless : '>' ∉ body) :
    Unterminated ("<!" ++ body) .unterminatedTag
  | tag {c : Char} {body : Text} (opens : c.isAlpha = true ∨ c = '/')
    (endless : ∀ inside behind, TagText inside → c :: body ≠ inside ++ '>' :: behind) :
    Unterminated ('<' :: c :: body) .unterminatedTag

/-- What the segments cover. -/
def covered (segments : List Segment) : Text := segments.flatMap (·.text)

/-- Each segment is spelled as its token; the one before says whether it is raw text. -/
def AllSpelled (left : Text) : Option Text → List Segment → Prop
  | _, [] => True
  | raw, segment :: later =>
    Spells raw (covered later ++ left) segment.text segment.token ∧
      AllSpelled left (Reader.rawTextAfter segment.token) later

/-- The place behind `before`: the bytes of it, and the line breaks in it. -/
def placeBehind (before : Text) : Position := ⟨byteLength before, 1 + newlines before⟩

/-- The tokens of the segments that stand behind `before`. -/
def placed (before : Text) : List Segment → List Placed
  | [] => []
  | segment :: later =>
    (segment.token.map fun token => ⟨token, placeBehind before⟩).toList ++
      placed (before ++ segment.text) later

/-- A page is its segments, up to its end or to the markup without an end that is the fault. -/
structure Tiled (source : Text) (stream : TokenStream) (segments : List Segment) (left : Text) :
    Prop where
  whole : source = covered segments ++ left
  spelled : AllSpelled left none segments
  nonempty : ∀ segment ∈ segments, segment.text ≠ []
  tokens : stream.tokens = placed [] segments
  ended : stream.fault = none → left = []
  stopped : ∀ fault, stream.fault = some fault →
    Unterminated left fault.cause ∧ fault.position = placeBehind (covered segments)

/-- What the calls for the tokens of a stream answer; the last one finds the end or a fault. -/
def TokenStream.answers (stream : TokenStream) : List (Except Fault (Option Placed)) :=
  stream.tokens.map (fun token => .ok (some token)) ++
    [match stream.fault with
     | some fault => .error fault
     | none => .ok none]

/-! ## Single segments -/

theorem Spells.ne_nil {raw : Option Text} {behind text : Text} {token : Option Token}
    (h : Spells raw behind text token) : text ≠ [] := by
  cases h with
  | text _ nonempty _ _ => exact nonempty
  | rawText _ nonempty _ _ => exact nonempty
  | _ => simp

/-- A mark that begins nowhere inside a text is not a part of it. -/
theorem not_infix_of_noneInside {mark content behind : Text} (hne : mark ≠ [])
    (h : NoneInside (begins mark) content behind) : ¬ mark <:+: content := by
  rintro ⟨left, right, rfl⟩
  have hlater : begins mark ((mark ++ right) ++ behind) = false :=
    h left (mark ++ right) (List.append_assoc _ _ _) (by simp [hne])
  rw [List.append_assoc, begins_iff.mpr (List.prefix_append _ _)] at hlater
  cases hlater

theorem not_mem_of_absent {c : Char} {text : Text} (h : ¬ [c] <:+: text) : c ∉ text := by
  intro hin
  obtain ⟨left, right, rfl⟩ := List.append_of_mem hin
  exact h ⟨left, right, by simp⟩

/-- The inside of a tag ends at the first `>` outside quotes. -/
theorem tagText_of_tagInside? {quote : Option Char} {text inside : Text}
    (hquote : ∀ q ∈ quote, q = '"' ∨ q = '\'') (h : tagInside? quote text = some inside) :
    (∃ behind, text = inside ++ '>' :: behind) ∧
      match quote with
      | none => TagText inside
      | some q => ∃ value rest, inside = value ++ q :: rest ∧ q ∉ value ∧ TagText rest := by
  -- Both halves go by one induction: a quote that opens here is closed further on.
  induction text generalizing quote inside with
  | nil => cases h
  | cons c text ih =>
    cases quote with
    | some q =>
      obtain ⟨later, hlater, rfl⟩ := Option.map_eq_some_iff.mp h
      by_cases hc : c = q
      · rw [if_pos hc] at hlater
        obtain ⟨⟨behind, rfl⟩, hrest⟩ := ih (by simp) hlater
        exact ⟨⟨behind, rfl⟩, [], later, by simp [hc], by simp, hrest⟩
      · rw [if_neg hc] at hlater
        obtain ⟨⟨behind, rfl⟩, value, rest, rfl, hvalue, hrest⟩ := ih hquote hlater
        refine ⟨⟨behind, rfl⟩, c :: value, rest, rfl, ?_, hrest⟩
        exact List.not_mem_cons_of_ne_of_not_mem (fun heq => hc heq.symm) hvalue
    | none =>
      rw [tagInside?] at h
      split at h
      · rename_i hc
        cases h
        exact ⟨⟨text, by rw [hc]; rfl⟩, .nil⟩
      · rename_i hbracket
        obtain ⟨later, hlater, rfl⟩ := Option.map_eq_some_iff.mp h
        by_cases hc : c = '"' ∨ c = '\''
        · rw [if_pos hc] at hlater
          obtain ⟨⟨behind, rfl⟩, value, rest, rfl, hvalue, hrest⟩ := ih (by simpa using hc) hlater
          exact ⟨⟨behind, rfl⟩, .quoted hc hvalue hrest⟩
        · rw [if_neg hc] at hlater
          obtain ⟨⟨behind, rfl⟩, hrest⟩ := ih (by simp) hlater
          obtain ⟨hdouble, hsingle⟩ := not_or.mp hc
          exact ⟨⟨behind, rfl⟩, .plain ⟨hdouble, hsingle, hbracket⟩ hrest⟩

theorem not_opensMarkup_of_plainText {content : Text} (h : PlainText content) {c : Char}
    (hin : ['<', c] <:+: content) : ¬ OpensMarkup c := by
  obtain ⟨left, right, rfl⟩ := hin
  have hplain : startsMarkup ('<' :: c :: (right ++ [])) = false :=
    h.2 left ('<' :: c :: right) (by simp) (by simp)
  simpa [startsMarkup, OpensMarkup, or_comm, and_comm, and_left_comm] using hplain

theorem opensMarkup_of_startsMarkup {text : Text} (h : startsMarkup text = true) :
    ∃ c later, text = '<' :: c :: later ∧ OpensMarkup c := by
  unfold startsMarkup at h
  split at h
  · rename_i c later
    exact ⟨c, later, rfl, by simpa [OpensMarkup, or_comm, or_left_comm] using h⟩
  · cases h

theorem exists_of_text (c : Char) (rest : Text) :
    ∃ inside behind, rest = inside ++ behind ∧
      text c rest = ⟨some (.leaf (.text (c :: inside))), inside.length⟩ ∧
      (behind = [] ∨ ∃ d later, behind = '<' :: d :: later ∧ OpensMarkup d) := by
  unfold text
  split
  · rename_i inside behind heq
    obtain ⟨hrest, hstarts, -⟩ := breakWhere?_eq_some_iff.mp heq
    exact ⟨inside, behind, hrest, rfl, Or.inr (opensMarkup_of_startsMarkup hstarts)⟩
  · exact ⟨rest, [], by simp, rfl, Or.inl rfl⟩

theorem take_of_upTo (before : Text) {mark body : Text} {cause : Fault.Cause}
    {token : Text → Option Token} {piece : Piece} (hne : mark ≠ [])
    (h : upTo mark before.length cause body token = .ok piece) :
    ∃ inside behind, body = inside ++ mark ++ behind ∧
      (before ++ body).take piece.width = before ++ inside ++ mark ∧
      ¬ mark <:+: inside ∧ piece.token = token inside := by
  obtain ⟨inside, behind, hsplit, rfl⟩ := split?_of_upTo h
  obtain ⟨rfl, hends⟩ := split?_eq_some_iff.mp hsplit
  refine ⟨inside, behind, rfl, ?_, not_infix_of_noneInside hne hends, rfl⟩
  rw [← List.append_assoc, ← List.append_assoc]
  exact List.take_left' (by simp [Nat.add_assoc])

theorem take_of_tag {rest : Text} {token : Text → Token} {piece : Piece}
    (h : Piece.tag rest token = .ok piece) :
    ∃ inside behind, rest = inside ++ '>' :: behind ∧ rest.take piece.width = inside ++ ">" ∧
      TagText inside ∧ piece.token = some (token inside) := by
  obtain ⟨inside, hinside, rfl⟩ := tagInside?_of_tag h
  obtain ⟨⟨behind, rfl⟩, htag⟩ := tagText_of_tagInside? (by simp) hinside
  refine ⟨inside, behind, rfl, ?_, htag, rfl⟩
  rw [← List.singleton_append, ← List.append_assoc]
  exact List.take_left' (by simp)

/-- The character that a tag begins with is a part of it. -/
theorem head_of_tag {d : Char} {rest inside behind : Text} (hd : d ≠ '>')
    (h : d :: rest = inside ++ '>' :: behind) : ∃ more, inside = d :: more := by
  cases inside with
  | nil => exact absurd (List.cons.inj h).1 hd
  | cons e more => exact ⟨more, by rw [(List.cons.inj h).1]⟩

theorem TagText.tail {c : Char} {rest : Text} (hc : c ≠ '"' ∧ c ≠ '\'') (h : TagText (c :: rest)) :
    TagText rest := by
  cases h with
  | plain _ h => exact h
  | quoted hq _ _ => exact absurd hq (not_or.mpr hc)

theorem spells_of_first {raw : Option Text} {c : Char} {rest : Text} {piece : Piece}
    (hraw : raw = none ∨ startsMarkup (c :: rest) = true) (h : first c rest = .ok piece) :
    Spells raw (rest.drop piece.width) (c :: rest.take piece.width) piece.token := by
  unfold first at h
  split at h
  · rename_i body
    obtain ⟨inside, -, -, htake, hends, htoken⟩ := take_of_upTo ['!', '-', '-'] (by simp) h
    have htext : '<' :: List.take piece.width ('!' :: '-' :: '-' :: body) =
        ("<!--" ++ inside ++ "-->" : Text) := congrArg ('<' :: ·) htake
    rw [htoken, htext]
    exact .comment hends
  · rename_i body
    obtain ⟨inside, -, -, htake, hends, htoken⟩ := take_of_upTo ['?'] (by simp) h
    have htext : '<' :: List.take piece.width ('?' :: body) = ("<?" ++ inside ++ "?>" : Text) :=
      congrArg ('<' :: ·) htake
    rw [htoken, htext]
    cases hxml : isXmlDeclaration inside with
    | true => exact .xmlDeclaration hxml hends
    | false => exact .serverCode hxml hends
  · rename_i body hcomment
    obtain ⟨inside, behind, hbody, htake, hends, htoken⟩ := take_of_upTo ['!'] (by simp) h
    have htext : '<' :: List.take piece.width ('!' :: body) = ("<!" ++ inside ++ ">" : Text) :=
      congrArg ('<' :: ·) htake
    rw [htoken, htext]
    refine .declaration (not_mem_of_absent hends) ?_
    rintro ⟨more, rfl⟩
    exact hcomment _ hbody
  · rename_i body
    obtain ⟨inside, behind, hrest, htake, htag, htoken⟩ := take_of_tag h
    obtain ⟨more, rfl⟩ := head_of_tag (by decide) hrest
    rw [htoken, htake]
    exact .closeTag (htag.tail (by decide))
  · rename_i hcomment hquestion hbang hslash
    split at h
    · rename_i hstarts
      obtain ⟨d, body, rfl, rfl, hd⟩ := letter_of_startsMarkup hstarts hbang hquestion hslash
      obtain ⟨inside, behind, hrest, htake, htag, htoken⟩ := take_of_tag h
      obtain ⟨more, rfl⟩ := head_of_tag (ne_of_isTagNamePart (isTagNamePart_of_isAlpha hd)).2.2 hrest
      rw [htoken, htake]
      exact .openTag hd htag
    · rename_i hstarts
      cases h
      obtain ⟨inside, behind, rfl, htext, hstops⟩ := exists_of_text c rest
      obtain ⟨content, hcontent, hplain⟩ := plainText_of_text (by simpa using hstarts)
      rw [htext] at hcontent ⊢
      cases hcontent
      rw [List.take_left, List.drop_left]
      exact .text (hraw.resolve_right hstarts) (by simp)
        (fun _ => not_opensMarkup_of_plainText hplain) hstops

theorem length_le_of_beginsNoCase {mark text : Text} (h : beginsNoCase mark text = true) :
    mark.length ≤ text.length := by
  have hlower : lower mark = lower (text.take mark.length) := by
    simpa [beginsNoCase, sameName] using h
  have hlength := congrArg List.length hlower
  simp only [lower, List.length_map, List.length_take] at hlength
  omega

theorem noneInside_of_rawText? {name : Text} {c : Char} {rest : Text} {piece : Piece}
    (h : rawText? name c rest = some piece) :
    ∃ inside behind, rest = inside ++ behind ∧
      piece = ⟨some (.leaf (.text (c :: inside))), inside.length⟩ ∧
      NoneInside (beginsNoCase ("</" ++ name)) (c :: inside) behind ∧
      (behind = [] ∨ beginsNoCase ("</" ++ name) behind = true) := by
  unfold rawText? at h
  simp only at h
  split at h
  · cases h
  · rename_i hc
    cases h
    split
    · rename_i inside behind heq
      obtain ⟨rfl, hcloses, hnone⟩ := breakWhere?_eq_some_iff.mp heq
      exact ⟨inside, behind, rfl, rfl, noneInside_cons.mpr ⟨by simpa using hc, hnone⟩, Or.inr hcloses⟩
    · rename_i heq
      have hnone := (breakWhere?_eq_none_iff.mp heq).2
      exact ⟨rest, [], by simp, rfl, noneInside_cons.mpr ⟨by simpa using hc, hnone⟩, Or.inl rfl⟩

theorem spells_of_rawText? {name : Text} {c : Char} {rest : Text} {piece : Piece}
    (h : rawText? name c rest = some piece) :
    Spells (some name) (rest.drop piece.width) (c :: rest.take piece.width) piece.token := by
  obtain ⟨inside, behind, rfl, rfl, hnone, hstops⟩ := noneInside_of_rawText? h
  rw [List.take_left, List.drop_left]
  refine .rawText rfl (by simp) ?_ hstops
  intro left right hsplit
  rw [Bool.eq_false_iff]
  intro hbegins
  have hlength := length_le_of_beginsNoCase hbegins
  have hright : right ≠ [] := by
    rintro rfl
    simp at hlength
  have hlater := hnone left right hsplit hright
  rw [beginsNoCase_append hlength, hbegins] at hlater
  cases hlater

theorem spells_of_piece {raw : Option Text} {c : Char} {rest text : Text} {position : Position}
    {piece : Piece} (h : Reader.piece ⟨text, position, raw⟩ c rest = .ok piece) :
    Spells raw (rest.drop piece.width) (c :: rest.take piece.width) piece.token := by
  cases raw with
  | none => exact spells_of_first (Or.inl rfl) h
  | some name =>
    rw [Reader.piece_some] at h
    cases hraw : rawText? name c rest with
    | some piece' =>
      rw [hraw] at h
      cases h
      exact spells_of_rawText? hraw
    | none =>
      -- The end tag of the element stands here, so that no text can.
      rw [hraw] at h
      obtain ⟨written, behind, htext, -⟩ := exists_of_closes (rawText?_eq_none hraw)
      exact spells_of_first (Or.inr (by rw [htext]; rfl)) h

/-! ## Markup without an end -/

theorem closesQuotes_of_tagText {inside : Text} (h : TagText inside) : ClosesQuotes inside := by
  induction h with
  | nil => exact closesQuotes_nil
  | @plain c _ hc _ ih =>
    have hone : ClosesQuotes [c] := closesQuotes_of_plain (by simpa using hc)
    exact closesQuotes_append hone ih
  | quoted hq hv _ ih =>
    rw [List.append_cons, ← List.cons_append]
    exact closesQuotes_append (closesQuotes_quoted hq hv) ih

theorem endless_of_upTo {mark body : Text} {skipped : Nat} {cause cause' : Fault.Cause}
    {token : Text → Option Token} (hne : mark ≠ [])
    (h : upTo mark skipped cause body token = .error cause') :
    ¬ mark <:+: body ∧ cause' = cause := by
  unfold upTo at h
  split at h
  · cases h
  · rename_i hsplit
    cases h
    have hnone := (breakWhere?_eq_none_iff.mp (Option.map_eq_none_iff.mp hsplit)).2
    exact ⟨not_infix_of_noneInside hne hnone, rfl⟩

theorem endless_of_tag {rest : Text} {token : Text → Token} {cause : Fault.Cause}
    (h : Piece.tag rest token = .error cause) :
    (∀ inside behind, TagText inside → rest ≠ inside ++ '>' :: behind) ∧ cause = .unterminatedTag := by
  unfold Piece.tag at h
  split at h
  · cases h
  · rename_i hnone
    cases h
    refine ⟨?_, rfl⟩
    rintro inside behind htag rfl
    rw [closesQuotes_of_tagText htag] at hnone
    cases hnone

theorem unterminated_of_first {c : Char} {rest : Text} {cause : Fault.Cause}
    (h : first c rest = .error cause) : Unterminated (c :: rest) cause := by
  unfold first at h
  split at h
  · obtain ⟨hendless, rfl⟩ := endless_of_upTo (by simp) h
    exact .comment hendless
  · obtain ⟨hendless, rfl⟩ := endless_of_upTo (by simp) h
    exact .instruction hendless
  · obtain ⟨hendless, rfl⟩ := endless_of_upTo (by simp) h
    exact .declaration (not_mem_of_absent hendless)
  · obtain ⟨hendless, rfl⟩ := endless_of_tag h
    exact .tag (Or.inr rfl) hendless
  · rename_i hcomment hquestion hbang hslash
    split at h
    · rename_i hstarts
      obtain ⟨d, body, rfl, rfl, hd⟩ := letter_of_startsMarkup hstarts hbang hquestion hslash
      obtain ⟨hendless, rfl⟩ := endless_of_tag h
      exact .tag (Or.inl hd) hendless
    · cases h

theorem unterminated_of_piece {raw : Option Text} {c : Char} {rest text : Text} {position : Position}
    {cause : Fault.Cause} (h : Reader.piece ⟨text, position, raw⟩ c rest = .error cause) :
    Unterminated (c :: rest) cause := by
  cases raw with
  | none => exact unterminated_of_first h
  | some name =>
    rw [Reader.piece_some] at h
    cases hraw : rawText? name c rest with
    | some piece =>
      rw [hraw] at h
      cases h
    | none =>
      rw [hraw] at h
      exact unterminated_of_first h

/-! ## Whole pages -/

@[simp] theorem covered_nil : covered [] = [] := rfl

@[simp] theorem covered_cons (segment : Segment) (later : List Segment) :
    covered (segment :: later) = segment.text ++ covered later := rfl

theorem advance_placeBehind (before text : Text) :
    (placeBehind before).advance text = placeBehind (before ++ text) := by
  simp [placeBehind, Position.advance, Nat.add_assoc]

theorem start_eq_placeBehind : Position.start = placeBehind [] := rfl

namespace Reader

/-- A piece adds its token, if it has one, to those behind it. -/
theorem stream_of_piece {c : Char} {rest : Text} {position : Position} {raw : Option Text}
    {piece : Piece} (h : Reader.piece ⟨c :: rest, position, raw⟩ c rest = .ok piece) :
    stream ⟨c :: rest, position, raw⟩ =
      let later := (behind ⟨c :: rest, position, raw⟩ c rest piece).stream
      ⟨(piece.token.map fun token => ⟨token, position⟩).toList ++ later.tokens, later.fault⟩ := by
  rw [stream_cons, h]
  cases htoken : piece.token <;> simp only [htoken] <;> rfl

/-- From any place of a page on, the rest of it is cut into segments. -/
theorem exists_segments (before text : Text) (raw : Option Text) :
    ∃ segments left, text = covered segments ++ left ∧ AllSpelled left raw segments ∧
      (stream ⟨text, placeBehind before, raw⟩).tokens = placed before segments ∧
      ((stream ⟨text, placeBehind before, raw⟩).fault = none → left = []) ∧
      ∀ fault, (stream ⟨text, placeBehind before, raw⟩).fault = some fault →
        Unterminated left fault.cause ∧
          fault.position = placeBehind (before ++ covered segments) := by
  induction hn : text.length using Nat.strongRecOn generalizing before text raw with
  | ind n ih =>
    subst hn
    cases text with
    | nil =>
      rw [stream_nil]
      exact ⟨[], [], rfl, trivial, rfl, fun _ => rfl, nofun⟩
    | cons c rest =>
      cases hpiece : piece ⟨c :: rest, placeBehind before, raw⟩ c rest with
      | error cause =>
        rw [stream_cons, hpiece]
        refine ⟨[], c :: rest, rfl, trivial, rfl, nofun, ?_⟩
        rintro fault ⟨⟩
        exact ⟨unterminated_of_piece hpiece, by simp⟩
      | ok piece =>
        obtain ⟨segments, left, hrest, hspelled, htokens, hended, hstopped⟩ :=
          ih (rest.drop piece.width).length (by simp only [List.length_drop, List.length_cons]; omega)
            (before ++ c :: rest.take piece.width) (rest.drop piece.width) (rawTextAfter piece.token) rfl
        have hbehind : behind ⟨c :: rest, placeBehind before, raw⟩ c rest piece =
            ⟨rest.drop piece.width, placeBehind (before ++ c :: rest.take piece.width),
              rawTextAfter piece.token⟩ := by
          rw [← advance_placeBehind]
          rfl
        rw [stream_of_piece hpiece, hbehind]
        refine ⟨⟨c :: rest.take piece.width, piece.token⟩ :: segments, left, ?_,
          ⟨hrest ▸ spells_of_piece hpiece, hspelled⟩, ?_, hended, ?_⟩
        · rw [covered_cons, List.append_assoc, ← hrest, List.cons_append, List.take_append_drop]
        · exact congrArg _ htokens
        · rwa [covered_cons, ← List.append_assoc]

/-- Called for token after token, a reader answers with its stream. -/
theorem steps_stream (reader : Reader) :
    steps (reader.stream.tokens.length + 1) reader = reader.stream.answers := by
  induction hn : reader.rest.length using Nat.strongRecOn generalizing reader with
  | ind n ih =>
    subst hn
    rw [stream_eq]
    cases hnext : reader.next with
    | mk answer later =>
      match answer with
      | .error fault => simp [steps, TokenStream.answers, hnext]
      | .ok none => simp [steps, TokenStream.answers, hnext]
      | .ok (some placed) =>
        have hlater := ih later.rest.length (length_lt_of_next hnext) later rfl
        simp only [List.length_cons, steps, hnext] at hlater ⊢
        rw [hlater]
        rfl

end Reader

theorem ne_nil_of_allSpelled {left : Text} {raw : Option Text} {segments : List Segment}
    (h : AllSpelled left raw segments) : ∀ segment ∈ segments, segment.text ≠ [] := by
  induction segments generalizing raw with
  | nil => simp
  | cons segment later ih => exact List.forall_mem_cons.mpr ⟨h.1.ne_nil, ih h.2⟩

theorem length_placed_le (before : Text) (segments : List Segment) :
    (placed before segments).length ≤ segments.length := by
  induction segments generalizing before with
  | nil => exact Nat.le_refl _
  | cons segment later ih =>
    have hlater := ih (before ++ segment.text)
    have hone : (segment.token.map fun token => Placed.mk token (placeBehind before)).toList.length ≤ 1 := by
      cases segment.token <;> simp
    rw [placed, List.length_append, List.length_cons]
    omega

theorem byteLength_pos {text : Text} (h : text ≠ []) : 0 < byteLength text := by
  cases text with
  | nil => exact absurd rfl h
  | cons c rest =>
    have := c.utf8Size_pos
    rw [byteLength_cons]
    omega

theorem length_le_byteLength {segments : List Segment}
    (h : ∀ segment ∈ segments, segment.text ≠ []) :
    segments.length ≤ byteLength (covered segments) := by
  induction segments with
  | nil => exact Nat.le_refl _
  | cons segment later ih =>
    obtain ⟨hfirst, hlater⟩ := List.forall_mem_cons.mp h
    have := byteLength_pos hfirst
    have := ih hlater
    rw [covered_cons, byteLength_append, List.length_cons]
    omega

namespace TokenStream

/-- A page is tiled by the segments of its tokens and by declarations, and the calls that read all
tokens are at most one more than its bytes. -/
theorem tiled_ofSource (source : Text) :
    (∃ segments left, Tiled source (ofSource source) segments left) ∧
      ∃ calls ≤ byteLength source + 1,
        Reader.steps calls (Reader.ofSource source) = (ofSource source).answers := by
  obtain ⟨segments, left, hwhole, hspelled, htokens, hended, hstopped⟩ :=
    Reader.exists_segments [] source none
  have hnonempty := ne_nil_of_allSpelled hspelled
  constructor
  · exact ⟨segments, left, hwhole, hspelled, hnonempty, htokens, hended, hstopped⟩
  · refine ⟨_, ?_, Reader.steps_stream _⟩
    have hlength : (Reader.ofSource source).stream.tokens.length ≤ segments.length := by
      rw [Reader.ofSource, start_eq_placeBehind, htokens]
      exact length_placed_le [] segments
    have hbytes : byteLength (covered segments) ≤ byteLength source := by
      rw [hwhole, byteLength_append]
      exact Nat.le_add_right _ _
    exact Nat.succ_le_succ (hlength.trans ((length_le_byteLength hnonempty).trans hbytes))

/-- A declaration takes its place but has no token, and a bracket in quotes ends no tag. -/
example : ofSource "<!x>a<b c='>'>" =
    ⟨[⟨.leaf (.text "a"), ⟨4, 1⟩⟩, ⟨.openTag ⟨"b", [⟨"c", some ">"⟩], false⟩, ⟨5, 1⟩⟩], none⟩ := by
  decide +kernel

end TokenStream

end Phrasebook.Markup
