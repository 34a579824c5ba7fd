import Phrasebook.Proofs.Markup.StartTag

/-!
# Tokens of a page

What a token stream can hold. No markup starts inside a text, no comment and no server block holds its
own end, and the start tag of an element with raw text is followed by one text at most, which stops at
the first end tag of that element.
-/

namespace Phrasebook.Markup

open Text Piece

/-! ## One piece after the other -/

namespace Reader

theorem next_nil (position : Position) (raw : Option Text) :
    next ⟨[], position, raw⟩ = (.ok none, ⟨[], position, raw⟩) := by
  rw [next]

theorem next_cons (c : Char) (rest : Text) (position : Position) (raw : Option Text) :
    next ⟨c :: rest, position, raw⟩ =
      match piece ⟨c :: rest, position, raw⟩ c rest with
      | .error cause => (.error ⟨cause, position⟩, ⟨c :: rest, position, none⟩)
      | .ok piece =>
        match piece.token with
        | some token => (.ok (some ⟨token, position⟩), behind ⟨c :: rest, position, raw⟩ c rest piece)
        | none => next (behind ⟨c :: rest, position, raw⟩ c rest piece) := by
  exact (next.eq_def _).trans rfl

theorem stream_eq (reader : Reader) :
    reader.stream = match reader.next with
      | (.error fault, _) => ⟨[], some fault⟩
      | (.ok none, _) => ⟨[], none⟩
      | (.ok (some placed), later) => ⟨placed :: later.stream.tokens, later.stream.fault⟩ := by
  rw [stream]
  split <;> simp_all

theorem stream_nil (position : Position) (raw : Option Text) :
    stream ⟨[], position, raw⟩ = ⟨[], none⟩ := by
  rw [stream_eq, next_nil]

theorem stream_cons (c : Char) (rest : Text) (position : Position) (raw : Option Text) :
    stream ⟨c :: rest, position, raw⟩ =
      match piece ⟨c :: rest, position, raw⟩ c rest with
      | .error cause => ⟨[], some ⟨cause, position⟩⟩
      | .ok piece =>
        match piece.token with
        | some token =>
          ⟨⟨token, position⟩ :: (behind ⟨c :: rest, position, raw⟩ c rest piece).stream.tokens,
            (behind ⟨c :: rest, position, raw⟩ c rest piece).stream.fault⟩
        | none => (behind ⟨c :: rest, position, raw⟩ c rest piece).stream := by
  rw [stream_eq, next_cons]
  cases piece ⟨c :: rest, position, raw⟩ c rest with
  | error cause => rfl
  | ok piece =>
    cases hp : piece.token with
    | some token => simp only [hp]
    | none =>
      simp only [hp]
      rw [stream_eq]

end Reader

/-! ## Legal tokens -/

/-- Text in which no markup starts. -/
def PlainText (content : Text) : Prop := content ≠ [] ∧ NoneInside startsMarkup content []

/-- Text that the end tag of the element `name` does not stand in. -/
def RawText (name content : Text) : Prop :=
  content ≠ [] ∧ NoneInside (beginsNoCase ("</" ++ name)) content ("</" ++ name)

def Leaf.Legal : Leaf → Prop
  | .text content => PlainText content
  | .comment content => EndsAt "-->" content
  | .serverCode code => EndsAt "?>" code ∧ isXmlDeclaration code = false

def Token.Legal : Token → Prop
  | .openTag tag => tag.Legal
  | .closeTag _ => True
  | .leaf l => l.Legal

theorem startsMarkup_append {text : Text} (h : startsMarkup text = true) (behind : Text) :
    startsMarkup (text ++ behind) = true := by
  unfold startsMarkup at h
  split at h
  · exact h
  · cases h

theorem split?_of_upTo {mark body : Text} {skipped : Nat} {cause : Fault.Cause}
    {token : Text → Option Token} {piece : Piece}
    (h : upTo mark skipped cause body token = .ok piece) :
    ∃ inside behind, split? mark body = some (inside, behind) ∧
      piece = ⟨token inside, skipped + inside.length + mark.length⟩ := by
  unfold upTo at h
  split at h
  · rename_i inside behind heq
    cases h
    exact ⟨inside, behind, heq, rfl⟩
  · cases h

theorem tagInside?_of_tag {rest : Text} {token : Text → Token} {piece : Piece}
    (h : Piece.tag rest token = .ok piece) :
    ∃ inside, tagInside? none rest = some inside ∧
      piece = ⟨some (token inside), inside.length + 1⟩ := by
  unfold Piece.tag at h
  split at h
  · rename_i inside heq
    cases h
    exact ⟨inside, heq, rfl⟩
  · cases h

/-- A tag goes on at least up to the first quote or bracket. -/
theorem prefix_tagInside? {solid text inside : Text}
    (h : ∀ c ∈ solid, c ≠ '"' ∧ c ≠ '\'' ∧ c ≠ '>') (hp : solid <+: text)
    (hin : tagInside? none text = some inside) : solid <+: inside := by
  obtain ⟨behind, rfl⟩ := hp
  rw [closesQuotes_of_plain h] at hin
  obtain ⟨more, -, rfl⟩ := Option.map_eq_some_iff.mp hin
  exact List.prefix_append solid more

theorem plainText_of_text {c : Char} {rest : Text} (h : startsMarkup (c :: rest) = false) :
    ∃ content, text c rest = ⟨some (.leaf (.text content)), content.length - 1⟩ ∧
      PlainText content := by
  unfold text
  split
  · rename_i inside behind heq
    refine ⟨c :: inside, rfl, by simp, ?_⟩
    obtain ⟨rfl, -, hn⟩ := breakWhere?_eq_some_iff.mp heq
    rw [noneInside_cons, List.append_nil]
    constructor
    · rw [← Bool.not_eq_true] at h ⊢
      exact fun hs => h (startsMarkup_append hs behind)
    · intro left right hl hne
      have := hn left right hl hne
      rw [← Bool.not_eq_true] at this ⊢
      rw [List.append_nil]
      exact fun hs => this (startsMarkup_append hs behind)
  · rename_i heq
    refine ⟨c :: rest, rfl, by simp, ?_⟩
    rw [noneInside_cons, List.append_nil]
    exact ⟨h, (breakWhere?_eq_none_iff.mp heq).2⟩

theorem letter_of_startsMarkup {c : Char} {rest : Text} (h : startsMarkup (c :: rest) = true)
    (hbang : ∀ body, c = '<' → rest = '!' :: body → False)
    (hquestion : ∀ body, c = '<' → rest = '?' :: body → False)
    (hslash : ∀ body, c = '<' → rest = '/' :: body → False) :
    ∃ d body, c = '<' ∧ rest = d :: body ∧ d.isAlpha = true := by
  unfold startsMarkup at h
  split at h
  · rename_i d body heq
    cases heq
    refine ⟨d, body, rfl, rfl, ?_⟩
    rcases Bool.or_eq_true _ _ |>.mp h with h | h
    · exact h
    · simp only [List.contains_eq_mem, List.mem_cons, List.not_mem_nil, or_false,
        decide_eq_true_eq] at h
      rcases h with rfl | rfl | rfl
      · exact absurd rfl (hbang body rfl)
      · exact absurd rfl (hquestion body rfl)
      · exact absurd rfl (hslash body rfl)
  · cases h

theorem legal_of_first {c : Char} {rest : Text} {piece : Piece} {token : Token}
    (h : first c rest = .ok piece) (ht : piece.token = some token) : token.Legal := by
  unfold first at h
  split at h
  · obtain ⟨inside, behind, hs, rfl⟩ := split?_of_upTo h
    cases ht
    exact (split?_eq_some_iff.mp hs).2
  · obtain ⟨inside, behind, hs, rfl⟩ := split?_of_upTo h
    simp only at ht
    split at ht
    · cases ht
    · rename_i hxml
      cases ht
      exact ⟨(split?_eq_some_iff.mp hs).2, by simpa using hxml⟩
  · obtain ⟨inside, behind, hs, rfl⟩ := split?_of_upTo h
    cases ht
  · obtain ⟨inside, hs, rfl⟩ := tagInside?_of_tag h
    cases ht
    trivial
  · rename_i hcomment hquestion hbang hslash
    split at h
    · rename_i hstarts
      obtain ⟨inside, hs, rfl⟩ := tagInside?_of_tag h
      cases ht
      obtain ⟨d, body, rfl, rfl, hd⟩ := letter_of_startsMarkup hstarts hbang hquestion hslash
      have hp : [d] <+: inside :=
        prefix_tagInside?
        (by simpa using ne_of_isTagNamePart (isTagNamePart_of_isAlpha hd)) ⟨body, rfl⟩ hs
      obtain ⟨more, rfl⟩ := hp
      exact Tag.legal_read hd more
    · rename_i hstarts
      obtain ⟨content, htext, hplain⟩ := plainText_of_text (by simpa using hstarts)
      rw [htext] at h
      cases h
      cases ht
      exact hplain

/-! ## Orderly streams -/

/-- The tokens that can follow, where `raw` is the element whose raw text begins. The text of an
element with raw text is all there is of it: its end tag follows, or nothing does. -/
def Orderly : Option Text → List Token → Prop
  | _, [] => True
  | none, .leaf leaf :: later => leaf.Legal ∧ Orderly none later
  | none, .openTag tag :: later =>
    tag.Legal ∧ Orderly (Reader.rawTextAfter (some (.openTag tag))) later
  | none, .closeTag _ :: later => Orderly none later
  | some name, .closeTag closing :: later => name <+: closing ∧ Orderly none later
  | some name, .leaf (.text content) :: later =>
    (later = [] ∨ RawText name content ∧
      ∃ closing others, later = .closeTag closing :: others ∧ name <+: closing) ∧
    Orderly none later
  | some _, _ :: _ => False

theorem orderly_cons {token : Token} {later : List Token} (h : token.Legal)
    (hl : Orderly (Reader.rawTextAfter (some token)) later) : Orderly none (token :: later) := by
  cases token with
  | openTag tag => exact ⟨h, hl⟩
  | closeTag name => exact hl
  | leaf l => exact ⟨h, hl⟩

/-- A name of an element with raw text: it is in lower case, and nothing in it ends a tag. -/
structure PlainName (name : Text) : Prop where
  lowered : lower name = name
  solid : ∀ c ∈ name, isBlank c = false
  plain : ∀ c : Char, c.toLower ∈ name → c ≠ '"' ∧ c ≠ '\'' ∧ c ≠ '>'

theorem eq_of_isRawText {name : Text} (h : isRawText name = true) :
    name = "script".toList ∨ name = "style".toList := by
  simpa [isRawText, rawTextNames] using h

theorem plainName_of_isRawText {name : Text} (h : isRawText name = true) : PlainName name := by
  have hname := eq_of_isRawText h
  have hsolid : name.all (fun c => !isBlank c) = true := by
    rcases hname with rfl | rfl <;> decide
  have hblank : ∀ c ∈ name, isBlank c = false := by
    intro c hc
    simpa using List.all_eq_true.mp hsolid c hc
  rcases hname with rfl | rfl
  · refine ⟨by decide, hblank, ?_⟩
    intro c hc
    refine ⟨?_, ?_, ?_⟩ <;> (rintro rfl; revert hc; decide)
  · refine ⟨by decide, hblank, ?_⟩
    intro c hc
    refine ⟨?_, ?_, ?_⟩ <;> (rintro rfl; revert hc; decide)

theorem isRawText_of_rawTextAfter {token : Option Token} {name : Text}
    (h : Reader.rawTextAfter token = some name) :
    ∃ tag, token = some (.openTag tag) ∧ tag.name = name ∧ tag.selfClosing = false ∧
      isRawText name = true := by
  unfold Reader.rawTextAfter at h
  split at h
  · split at h
    · rename_i tag hraw
      cases h
      simp only [Tag.startsRawText, Bool.and_eq_true, Bool.not_eq_true'] at hraw
      exact ⟨tag, rfl, rfl, hraw.1, hraw.2⟩
    · cases h
  · cases h

theorem exists_of_closes {name text : Text}
    (h : beginsNoCase ("</" ++ name) text = true) :
    ∃ written behind, text = '<' :: '/' :: (written ++ behind) ∧ lower written = lower name := by
  have hmark : lower ("</" ++ name) = '<' :: '/' :: lower name := rfl
  unfold beginsNoCase sameName at h
  rw [beq_iff_eq, hmark, eq_comm] at h
  obtain ⟨c, tail, htake, hc, htail⟩ := List.map_eq_cons_iff.mp h
  obtain ⟨d, written, rfl, hd, hwritten⟩ := List.map_eq_cons_iff.mp htail
  obtain rfl : c = '<' := eq_of_toLower_eq hc (by decide)
  obtain rfl : d = '/' := eq_of_toLower_eq hd (by decide)
  refine ⟨written, text.drop ("</" ++ name : Text).length, ?_, hwritten⟩
  have := List.take_append_drop ("</" ++ name : Text).length text
  rw [htake] at this
  exact this.symm

/-- The end tag that raw text stops at is named at least as the element. -/
theorem closing_of_first {name : Text} {c : Char} {rest : Text} {piece : Piece}
    (hname : PlainName name) (hc : beginsNoCase ("</" ++ name) (c :: rest) = true)
    (h : first c rest = .ok piece) :
    ∃ closing, piece.token = some (.closeTag closing) ∧ name <+: closing := by
  obtain ⟨written, behind, htext, hlow⟩ := exists_of_closes hc
  obtain ⟨rfl, rfl⟩ := List.cons.injEq _ _ _ _ |>.mp htext
  have hfirst : first '<' ('/' :: (written ++ behind)) =
      Piece.tag ('/' :: (written ++ behind)) fun inside =>
        .closeTag (lower (trim (inside.drop 1))) := rfl
  rw [hfirst] at h
  obtain ⟨inside, hin, rfl⟩ := tagInside?_of_tag h
  refine ⟨_, rfl, ?_⟩
  rw [hname.lowered] at hlow
  have hplain : ∀ d ∈ '/' :: written, d ≠ '"' ∧ d ≠ '\'' ∧ d ≠ '>' := by
    intro d hd
    rcases List.mem_cons.mp hd with rfl | hd
    · decide
    · exact hname.plain d (by rw [← hlow]; exact List.mem_map_of_mem hd)
  obtain ⟨more, rfl⟩ := prefix_tagInside? hplain ⟨behind, rfl⟩ hin
  have hsolid : ∀ d ∈ written, isBlank d = false := by
    intro d hd
    rw [← isBlank_toLower]
    exact hname.solid _ (by rw [← hlow]; exact List.mem_map_of_mem hd)
  obtain ⟨others, hothers⟩ := prefix_trim hsolid (List.prefix_append written more)
  refine ⟨lower others, ?_⟩
  rw [List.cons_append, List.drop_one, List.tail_cons, ← hothers, lower_append, hlow]

/-- Only the first characters of what stands behind count, and not their case. -/
theorem beginsNoCase_congr {mark a b : Text}
    (h : lower (a.take mark.length) = lower (b.take mark.length)) (before : Text) :
    beginsNoCase mark (before ++ a) = beginsNoCase mark (before ++ b) := by
  have cut : ∀ text : Text, lower (text.take (mark.length - before.length)) =
      (lower (text.take mark.length)).take (mark.length - before.length) := by
    intro text
    rw [← lower_take, List.take_take, Nat.min_eq_left (Nat.sub_le _ _)]
  unfold beginsNoCase sameName
  rw [List.take_append, List.take_append, lower_append, lower_append, cut a, cut b, h]

/-- Raw text as it is read: it stops where the end tag of its element begins. -/
theorem rawText?_eq_some {name : Text} {c : Char} {rest : Text} {piece : Piece}
    (h : rawText? name c rest = some piece) :
    ∃ inside behind, piece = ⟨some (.leaf (.text (c :: inside))), inside.length⟩ ∧
      rest = inside ++ behind ∧
      (behind = [] ∨ beginsNoCase ("</" ++ name) behind = true ∧ RawText name (c :: inside)) := by
  unfold rawText? at h
  simp only at h
  split at h
  · cases h
  · rename_i hc
    cases h
    split
    · rename_i inside behind heq
      obtain ⟨rfl, hf, hn⟩ := breakWhere?_eq_some_iff.mp heq
      refine ⟨inside, behind, rfl, rfl, Or.inr ⟨hf, by simp, ?_⟩⟩
      intro left right hl hne
      have hmark : lower (List.take ("</" ++ name : Text).length ("</" ++ name)) =
          lower (behind.take ("</" ++ name : Text).length) := by
        rw [List.take_length]
        simpa [beginsNoCase, sameName] using hf
      rw [beginsNoCase_congr hmark]
      exact noneInside_cons.mpr ⟨by simpa using hc, hn⟩ left right hl hne
    · exact ⟨rest, [], rfl, by simp, Or.inl rfl⟩

theorem rawText?_eq_none {name : Text} {c : Char} {rest : Text}
    (h : rawText? name c rest = none) : beginsNoCase ("</" ++ name) (c :: rest) = true := by
  unfold rawText? at h
  simp only at h
  split at h
  · assumption
  · cases h

namespace Reader

theorem piece_none (c : Char) (rest : Text) (text : Text) (position : Position) :
    piece ⟨text, position, none⟩ c rest = first c rest := rfl

theorem piece_some (c : Char) (rest : Text) (text : Text) (position : Position) (name : Text) :
    piece ⟨text, position, some name⟩ c rest =
      match rawText? name c rest with
      | some piece => .ok piece
      | none => first c rest := rfl

/-- Where an end tag of raw text stands, it is the first token. -/
theorem stream_of_closes {name : Text} (hname : PlainName name) {text : Text}
    (hc : beginsNoCase ("</" ++ name) text = true) (position : Position) :
    (stream ⟨text, position, none⟩).tokens.map (·.token) = [] ∨
      ∃ closing later, (stream ⟨text, position, none⟩).tokens.map (·.token) =
        .closeTag closing :: later ∧ name <+: closing := by
  obtain ⟨written, behind, htext, -⟩ := exists_of_closes hc
  cases text with
  | nil => cases htext
  | cons c rest =>
    rw [stream_cons, piece_none]
    cases hp : first c rest with
    | error cause => exact Or.inl rfl
    | ok piece =>
      obtain ⟨closing, htoken, hpre⟩ := closing_of_first hname hc hp
      right
      simp only [htoken, List.map_cons]
      exact ⟨closing, _, rfl, hpre⟩

theorem orderly_stream (text : Text) (position : Position) (raw : Option Text)
    (hraw : ∀ name, raw = some name → isRawText name = true) :
    Orderly raw ((stream ⟨text, position, raw⟩).tokens.map (·.token)) := by
  induction hn : text.length using Nat.strongRecOn generalizing text position raw with
  | ind n ih =>
    subst hn
    cases text with
    | nil =>
      rw [stream_nil]
      simp [Orderly]
    | cons c rest =>
      -- What follows a piece is orderly, since it is shorter.
      have later : ∀ piece : Piece, Orderly (rawTextAfter piece.token)
          ((behind ⟨c :: rest, position, raw⟩ c rest piece).stream.tokens.map (·.token)) := by
        intro piece
        refine ih _ ?_ _ _ _ ?_ rfl
        · simp only [List.length_drop, List.length_cons]
          omega
        · intro name hname
          obtain ⟨-, -, -, -, h⟩ := isRawText_of_rawTextAfter hname
          exact h
      rw [stream_cons]
      cases raw with
      | none =>
        rw [piece_none]
        cases hp : first c rest with
        | error cause => simp [Orderly]
        | ok piece =>
          cases ht : piece.token with
          | some token =>
            simp only [ht, List.map_cons]
            have := later piece
            rw [ht] at this
            exact orderly_cons (legal_of_first hp ht) this
          | none =>
            simp only [ht]
            have := later piece
            rw [ht] at this
            exact this
      | some name =>
        have hplain := plainName_of_isRawText (hraw name rfl)
        rw [piece_some]
        cases hr : rawText? name c rest with
        | none =>
          simp only
          cases hp : first c rest with
          | error cause => simp [Orderly]
          | ok piece =>
            obtain ⟨closing, ht, hpre⟩ := closing_of_first hplain (rawText?_eq_none hr) hp
            simp only [ht, List.map_cons]
            have := later piece
            rw [ht] at this
            exact ⟨hpre, this⟩
        | some piece =>
          obtain ⟨inside, after, rfl, rfl, hstop⟩ := rawText?_eq_some hr
          have hlater := later ⟨some (.leaf (.text (c :: inside))), inside.length⟩
          simp only [behind, List.drop_left, List.map_cons] at hlater ⊢
          refine ⟨?_, hlater⟩
          rcases hstop with rfl | ⟨hcloses, hcontent⟩
          · rw [stream_nil]
            exact Or.inl rfl
          · rcases stream_of_closes hplain hcloses _ with hnone | hclosing
            · exact Or.inl hnone
            · exact Or.inr ⟨hcontent, hclosing⟩

end Reader

end Phrasebook.Markup
