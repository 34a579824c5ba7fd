import Phrasebook.Proofs.Markup.LegalForest

/-!
# Reading what is written

The markup of a legal forest is read token by token: each node gives its own tokens, and what is
behind them is left as it is. The builder makes the same forest of these tokens again.
-/

namespace Phrasebook.Markup

open Text Piece

/-! ## Reading some tokens -/

/-- From `text` on the tokens are read first, and `text'` is left. The marks `raw` and `raw'` are the
elements whose raw text begins there. -/
def Reads (raw : Option Text) (text : Text) (tokens : List Token) (raw' : Option Text)
    (text' : Text) : Prop :=
  ∀ position, ∃ placed position', placed.map (·.token) = tokens ∧
    Reader.stream ⟨text, position, raw⟩ =
      ⟨placed ++ (Reader.stream ⟨text', position', raw'⟩).tokens,
        (Reader.stream ⟨text', position', raw'⟩).fault⟩

theorem reads_nil (raw : Option Text) (text : Text) : Reads raw text [] raw text :=
  fun position => ⟨[], position, rfl, rfl⟩

theorem Reads.append {raw raw' raw'' : Option Text} {text text' text'' : Text}
    {tokens tokens' : List Token} (h : Reads raw text tokens raw' text')
    (h' : Reads raw' text' tokens' raw'' text'') :
    Reads raw text (tokens ++ tokens') raw'' text'' := by
  intro position
  obtain ⟨placed, position', rfl, heq⟩ := h position
  obtain ⟨placed', position'', rfl, heq'⟩ := h' position'
  refine ⟨placed ++ placed', position'', by simp, ?_⟩
  rw [heq, heq', List.append_assoc]

theorem Reads.cons {raw raw' raw'' : Option Text} {text text' text'' : Text} {token : Token}
    {tokens : List Token} (h : Reads raw text [token] raw' text')
    (h' : Reads raw' text' tokens raw'' text'') : Reads raw text (token :: tokens) raw'' text'' :=
  h.append h'

/-- A token is read together with the text that it takes. -/
theorem stream_of_token {raw : Option Text} {c : Char} {inside tail : Text} {token : Token}
    {position : Position}
    (h : Reader.piece ⟨c :: (inside ++ tail), position, raw⟩ c (inside ++ tail) =
      .ok ⟨some token, inside.length⟩) :
    Reader.stream ⟨c :: (inside ++ tail), position, raw⟩ =
      let later := Reader.stream
        ⟨tail, position.advance (c :: inside), Reader.rawTextAfter (some token)⟩
      ⟨⟨token, position⟩ :: later.tokens, later.fault⟩ := by
  rw [Reader.stream_cons, h]
  simp only [Reader.behind, List.drop_left, List.take_left]

theorem stream_of_first {c : Char} {inside tail : Text} {token : Token}
    (h : first c (inside ++ tail) = .ok ⟨some token, inside.length⟩) (position : Position) :
    Reader.stream ⟨c :: (inside ++ tail), position, none⟩ =
      let later := Reader.stream
        ⟨tail, position.advance (c :: inside), Reader.rawTextAfter (some token)⟩
      ⟨⟨token, position⟩ :: later.tokens, later.fault⟩ :=
  stream_of_token h

theorem reads_piece {raw : Option Text} {c : Char} {inside tail : Text} {token : Token}
    (h : ∀ position, Reader.piece ⟨c :: (inside ++ tail), position, raw⟩ c (inside ++ tail) =
      .ok ⟨some token, inside.length⟩) :
    Reads raw (c :: (inside ++ tail)) [token] (Reader.rawTextAfter (some token)) tail :=
  fun position =>
    ⟨[⟨token, position⟩], position.advance (c :: inside), rfl, stream_of_token (h position)⟩

theorem reads_first {c : Char} {inside tail : Text} {token : Token}
    (h : first c (inside ++ tail) = .ok ⟨some token, inside.length⟩) :
    Reads none (c :: (inside ++ tail)) [token] (Reader.rawTextAfter (some token)) tail := by
  apply reads_piece
  intro position
  rw [Reader.piece_none, h]

/-! ## Leaves -/

theorem first_of_plain {c : Char} {rest : Text} (h : startsMarkup (c :: rest) = false) :
    first c rest = .ok (text c rest) := by
  unfold first
  split
  · cases h
  · cases h
  · cases h
  · cases h
  · rw [if_neg (by simp [h])]

theorem first_of_letter {d : Char} (h : d.isAlpha = true) (body : Text) :
    first '<' (d :: body) = Piece.tag (d :: body) fun inside => .openTag (.read inside) := by
  have hstarts : startsMarkup ('<' :: d :: body) = true := by simp [startsMarkup, h]
  unfold first
  split
  · rename_i heq; cases heq; exact absurd h (by decide)
  · rename_i heq; cases heq; exact absurd h (by decide)
  · rename_i heq; cases heq; exact absurd h (by decide)
  · rename_i heq; cases heq; exact absurd h (by decide)
  · rw [if_pos hstarts]

theorem first_comment {content : Text} (h : EndsAt "-->" content) (tail : Text) :
    first '<' ('!' :: '-' :: '-' :: (content ++ "-->") ++ tail) =
      .ok ⟨some (.leaf (.comment content)), ('!' :: '-' :: '-' :: (content ++ "-->")).length⟩ := by
  have hsplit : split? "-->" (content ++ "-->" ++ tail) = some (content, tail) :=
    split?_eq_some_iff.mpr ⟨rfl, h⟩
  change upTo "-->" 3 .unterminatedComment (content ++ "-->" ++ tail) _ = _
  rw [upTo, hsplit]
  simp [Nat.add_comm, Nat.add_left_comm]

theorem first_serverCode {code : Text} (h : EndsAt "?>" code) (tail : Text) :
    first '<' ('?' :: (code ++ "?>") ++ tail) =
      .ok ⟨if isXmlDeclaration code then none else some (.leaf (.serverCode code)),
        ('?' :: (code ++ "?>")).length⟩ := by
  have hsplit : split? "?>" (code ++ "?>" ++ tail) = some (code, tail) :=
    split?_eq_some_iff.mpr ⟨rfl, h⟩
  change upTo "?>" 1 .unterminatedInstruction (code ++ "?>" ++ tail) _ = _
  rw [upTo, hsplit]
  simp [Nat.add_comm, Nat.add_left_comm]

theorem reads_comment {content : Text} (h : EndsAt "-->" content) (tail : Text) :
    Reads none (Leaf.write (.comment content) ++ tail) [.leaf (.comment content)] none tail :=
  reads_first (first_comment h tail)

theorem reads_serverCode {code : Text} (h : EndsAt "?>" code) (hxml : isXmlDeclaration code = false)
    (tail : Text) :
    Reads none (Leaf.write (.serverCode code) ++ tail) [.leaf (.serverCode code)] none tail := by
  have hfirst := first_serverCode h tail
  rw [hxml] at hfirst
  exact reads_first hfirst

/-- What a text can be followed by. -/
def EndsText (tail : Text) : Prop := tail = [] ∨ startsMarkup tail = true

theorem head_of_startsMarkup {text : Text} (h : startsMarkup text = true) :
    ∃ rest, text = '<' :: rest := by
  unfold startsMarkup at h
  split at h
  · exact ⟨_, rfl⟩
  · cases h

/-- Markup does not begin in a text because of what follows it. -/
theorem startsMarkup_append_tail {text tail : Text} (hne : text ≠ [])
    (h : startsMarkup text = false) (ends : EndsText tail) : startsMarkup (text ++ tail) = false := by
  rcases ends with rfl | hs
  · rw [List.append_nil, h]
  · obtain ⟨rest, rfl⟩ := head_of_startsMarkup hs
    rcases text with _ | ⟨c, _ | ⟨d, more⟩⟩
    · exact absurd rfl hne
    · unfold startsMarkup
      split
      · rename_i heq
        cases heq
        decide
      · rfl
    · unfold startsMarkup at h ⊢
      split
      · rename_i heq
        cases heq
        exact h
      · rfl

theorem first_of_plainText {c : Char} {inside tail : Text} (h : PlainText (c :: inside))
    (ends : EndsText tail) :
    first c (inside ++ tail) = .ok ⟨some (.leaf (.text (c :: inside))), inside.length⟩ := by
  have hinside : NoneInside startsMarkup (c :: inside) tail := by
    intro left right hl hr
    have := h.2 left right hl hr
    rw [List.append_nil] at this
    exact startsMarkup_append_tail hr this ends
  obtain ⟨hfirst, hlater⟩ := noneInside_cons.mp hinside
  rw [first_of_plain hfirst]
  unfold text
  rcases ends with rfl | hs
  · rw [List.append_nil, breakWhere?_eq_none_iff.mpr ⟨rfl, hlater⟩]
  · rw [breakWhere?_eq_some_iff.mpr ⟨rfl, hs, hlater⟩]

theorem reads_text {content tail : Text} (h : PlainText content) (ends : EndsText tail) :
    Reads none (content ++ tail) [.leaf (.text content)] none tail := by
  obtain ⟨c, inside, rfl⟩ := List.exists_cons_of_ne_nil h.1
  exact reads_first (first_of_plainText h ends)

/-! ## Tags -/

theorem first_of_closesQuotes {d : Char} {inside : Text} (hd : d.isAlpha = true)
    (h : ClosesQuotes (d :: inside)) (tail : Text) :
    first '<' (d :: inside ++ ['>'] ++ tail) =
      .ok ⟨some (.openTag (.read (d :: inside))), (d :: inside ++ ['>']).length⟩ := by
  rw [List.append_assoc, List.singleton_append, List.cons_append, first_of_letter hd,
    ← List.cons_append, Piece.tag, tagInside?_of_closesQuotes h]
  simp

theorem first_openTag {tag : Tag} (h : tag.Legal) (tail : Text) :
    first '<' (tag.inside ++ ['>'] ++ tail) =
      .ok ⟨some (.openTag tag), (tag.inside ++ ['>']).length⟩ := by
  obtain ⟨d, name, hname, hd⟩ := h.head
  obtain ⟨body, hbody⟩ : ∃ body, tag.inside = d :: body := by
    rw [Tag.inside, hname]
    exact ⟨_, rfl⟩
  have hread := first_of_closesQuotes hd (hbody ▸ closesQuotes_inside h) tail
  rwa [← hbody, Tag.read_inside h] at hread

theorem reads_openTag {tag : Tag} (h : tag.Legal) (omitted tail : Text) :
    Reads none (tag.write omitted ++ tail) [.openTag (tag.without omitted)]
      (Reader.rawTextAfter (some (.openTag (tag.without omitted)))) tail := by
  rw [Tag.write_eq_inside]
  exact reads_first (first_openTag (h.without omitted) tail)

theorem not_isBlank_of_isTagNamePart {c : Char} (h : isTagNamePart c = true) :
    isBlank c = false := by
  simp only [isTagNamePart, Char.isAlphanum, Char.isDigit, isAlpha_iff, isUpper_iff, isLower_iff,
    ge_iff_le, UInt32.le_iff_toNat_le, Bool.or_eq_true, decide_eq_true_eq, Bool.and_eq_true,
    List.contains_eq_mem, List.mem_cons, List.not_mem_nil, or_false] at h
  rcases h with h | h
  · have hc : c.val.toNat = c.toNat := rfl
    rw [Bool.eq_false_iff]
    simp [isBlank, blankRanges]
    simp [hc] at h
    omega
  · rcases h with rfl | rfl | rfl | rfl <;> decide

theorem first_endTag {name : Text} (h : ∀ c ∈ name, isTagNamePart c = true) (tail : Text) :
    first '<' ('/' :: (name ++ ['>']) ++ tail) =
      .ok ⟨some (.closeTag (lower name)), ('/' :: (name ++ ['>'])).length⟩ := by
  have hsolid : ∀ c ∈ name, isBlank c = false :=
    fun c hc => not_isBlank_of_isTagNamePart (h c hc)
  have hclosed : ClosesQuotes ('/' :: name) := by
    apply closesQuotes_of_plain
    intro c hc
    rcases List.mem_cons.mp hc with rfl | hc
    · decide
    · exact ne_of_isTagNamePart (h c hc)
  change Piece.tag ('/' :: (name ++ ['>'] ++ tail)) _ = _
  rw [Piece.tag, List.append_assoc, List.singleton_append, ← List.cons_append,
    tagInside?_of_closesQuotes hclosed]
  simp [trim_of_solid hsolid]

theorem first_closeTag {tag : Tag} (h : tag.Legal) (tail : Text) :
    first '<' ('/' :: (tag.name ++ ['>']) ++ tail) =
      .ok ⟨some (.closeTag tag.name), ('/' :: (tag.name ++ ['>'])).length⟩ := by
  rw [first_endTag h.part, h.lowered]

theorem reads_closeTag {tag : Tag} (h : tag.Legal) (tail : Text) :
    Reads none (endTag tag.name ++ tail) [.closeTag tag.name] none tail := by
  simpa [endTag, Reader.rawTextAfter] using reads_first (first_closeTag h tail)

theorem stream_endTag {name : Text} (h : ∀ c ∈ name, isTagNamePart c = true) (position : Position) :
    Reader.stream ⟨endTag name, position, none⟩ = ⟨[⟨.closeTag (lower name), position⟩], none⟩ := by
  have hend : endTag name = '<' :: ('/' :: (name ++ ['>']) ++ []) := by
    rw [List.append_nil]
    rfl
  rw [hend, stream_of_first (first_endTag h [])]
  simp only [Reader.stream_nil]

/-! ## Raw text -/

theorem beginsNoCase_endTag (name tail : Text) :
    beginsNoCase ("</" ++ name) (endTag name ++ tail) = true := by
  have : endTag name ++ tail = ("</" ++ name : Text) ++ (">" ++ tail : Text) := by simp [endTag]
  rw [this, beginsNoCase, List.take_left, sameName, beq_self_eq_true]

theorem rawText?_of_noneInside {name : Text} {c : Char} {inside behind : Text}
    (hnone : NoneInside (beginsNoCase ("</" ++ name)) (c :: inside) behind)
    (hcloses : beginsNoCase ("</" ++ name) behind = true) :
    rawText? name c (inside ++ behind) =
      some ⟨some (.leaf (.text (c :: inside))), inside.length⟩ := by
  obtain ⟨hfirst, hlater⟩ := noneInside_cons.mp hnone
  unfold rawText?
  simp only [hfirst, Bool.false_eq_true, if_false]
  rw [breakWhere?_eq_some_iff.mpr ⟨rfl, hcloses, hlater⟩]

theorem rawText?_of_closes {name : Text} {c : Char} {rest : Text}
    (h : beginsNoCase ("</" ++ name) (c :: rest) = true) : rawText? name c rest = none := by
  unfold rawText?
  simp only [h, if_true]

theorem reads_rawText {name content : Text} (h : RawText name content) (tail : Text) :
    Reads (some name) (content ++ (endTag name ++ tail)) [.leaf (.text content)] none
      (endTag name ++ tail) := by
  obtain ⟨hne, hraw⟩ := h
  obtain ⟨c, inside, rfl⟩ := List.exists_cons_of_ne_nil hne
  have hmark : endTag name ++ tail = ("</" ++ name : Text) ++ (">" ++ tail : Text) := by
    simp [endTag]
  have hinside : NoneInside (beginsNoCase ("</" ++ name)) (c :: inside) (endTag name ++ tail) := by
    rw [hmark, noneInside_append fun text behind hle => beginsNoCase_append hle behind]
    exact hraw
  apply reads_piece
  intro position
  rw [Reader.piece_some, rawText?_of_noneInside hinside (beginsNoCase_endTag name tail)]

/-- Raw text may be missing. -/
theorem reads_rawEnd {name tail text' : Text} {tokens : List Token} {raw' : Option Text}
    (h : Reads none (endTag name ++ tail) tokens raw' text') :
    Reads (some name) (endTag name ++ tail) tokens raw' text' := by
  intro position
  obtain ⟨placed, position', htokens, heq⟩ := h position
  refine ⟨placed, position', htokens, ?_⟩
  rw [← heq]
  obtain ⟨c, rest, hrest⟩ : ∃ c rest, endTag name ++ tail = c :: rest := ⟨_, _, rfl⟩
  have hcloses := beginsNoCase_endTag name tail
  rw [hrest] at hcloses ⊢
  rw [Reader.stream_cons, Reader.stream_cons, Reader.piece_some, rawText?_of_closes hcloses]
  rfl

/-! ## Forests -/

namespace Forest

def without (omitted : Text) : Forest → Forest
  | nil => nil
  | leaf l position siblings => leaf l position (siblings.without omitted)
  | element tag position children siblings =>
    element (tag.without omitted) position (children.without omitted) (siblings.without omitted)

/-- The tokens that the markup of the nodes consists of, all end tags included. -/
def tokens : Forest → List Token
  | nil => []
  | leaf l _ siblings => .leaf l :: siblings.tokens
  | element tag _ children siblings =>
    .openTag tag ::
      ((if tag.isEmpty then [] else children.tokens ++ [.closeTag tag.name]) ++ siblings.tokens)

def startsWithText : Forest → Bool
  | leaf (.text _) _ _ => true
  | _ => false

/-- Whether no two texts stand side by side, here and below. -/
def noAdjacentTexts : Forest → Bool
  | nil => true
  | leaf (.text _) _ siblings => !siblings.startsWithText && siblings.noAdjacentTexts
  | leaf _ _ siblings => siblings.noAdjacentTexts
  | element _ _ children siblings => children.noAdjacentTexts && siblings.noAdjacentTexts

theorem endsText_write {parent : Option Text} {forest : Forest} (h : forest.Legal parent)
    (hfirst : forest.startsWithText = false) (omitted : Text) {tail : Text}
    (ends : EndsText tail) : EndsText (forest.write omitted ++ tail) := by
  cases forest with
  | nil => exact ends
  | leaf l position siblings =>
    cases l with
    | text content => cases hfirst
    | comment content => exact Or.inr rfl
    | serverCode code => exact Or.inr rfl
  | element tag position children siblings =>
    obtain ⟨-, ht, -⟩ := h
    obtain ⟨d, name, hname, hd⟩ := ht.head
    right
    rw [write, Tag.write, hname]
    simp [startsMarkup, hd]

/-- The markup of a legal forest is read as its tokens. -/
theorem reads_write {parent : Option Text} {forest : Forest} (h : forest.Legal parent)
    (hraw : rawName parent = none) (hadj : forest.noAdjacentTexts = true) (omitted : Text)
    {tail : Text} (ends : EndsText tail) :
    Reads none (forest.write omitted ++ tail) (forest.without omitted).tokens none tail := by
  induction forest generalizing parent tail with
  | nil => exact reads_nil none tail
  | leaf l position siblings ih =>
    obtain ⟨hl, -, hs⟩ := h
    rw [Leaf.LegalIn, hraw] at hl
    rw [write, List.append_assoc, without, tokens]
    cases l with
    | text content =>
      simp only [noAdjacentTexts, Bool.and_eq_true, Bool.not_eq_true'] at hadj
      exact (reads_text hl (endsText_write hs hadj.1 omitted ends)).cons
        (ih hs hraw hadj.2 ends)
    | comment content => exact (reads_comment hl _).cons (ih hs hraw hadj ends)
    | serverCode code => exact (reads_serverCode hl.1 hl.2 _).cons (ih hs hraw hadj ends)
  | element tag position children siblings ihc ihs =>
    obtain ⟨-, ht, -, hempty, hc, hs⟩ := h
    simp only [noAdjacentTexts, Bool.and_eq_true] at hadj
    have hlater := ihs hs hraw hadj.2 ends
    have hopen := reads_openTag ht omitted
    rw [write, without, tokens, Tag.isEmpty_without]
    cases hcontent : tag.isEmpty with
    | true =>
      rw [rawTextAfter_of_isEmpty (by simpa using hcontent)] at hopen
      simpa [hcontent] using (hopen _).cons hlater
    | false =>
      rw [rawTextAfter_of_not_isEmpty (by simpa using hcontent)] at hopen
      have hclose := (reads_closeTag ht (siblings.write omitted ++ tail)).cons hlater
      have hbody : Reads (rawName (some tag.name))
          (children.write omitted ++ (endTag tag.name ++ (siblings.write omitted ++ tail)))
          ((children.without omitted).tokens ++ (.closeTag tag.name ::
            (siblings.without omitted).tokens)) none tail := by
        cases hname : rawName (some tag.name) with
        | none => exact (ihc hc hname hadj.1 (Or.inr rfl)).append hclose
        | some name =>
          obtain ⟨heq, hraw'⟩ := rawName_eq_some.mp hname
          cases heq
          rcases hc.raw_cases hraw' with rfl | ⟨content, position', rfl, hcontent⟩
          · exact reads_rawEnd hclose
          · simpa [write, Leaf.write, without, tokens] using
              (reads_rawText hcontent (siblings.write omitted ++ tail)).cons hclose
      simpa [hcontent, List.append_assoc] using (hopen _).cons hbody

end Forest

end Phrasebook.Markup
