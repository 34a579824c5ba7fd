import Phrasebook.Proofs.Markup.Segments
import Phrasebook.Proofs.Markup.Written

/-!
# Pages with markup behind them

Markup that stands behind a page changes none of its tokens: what ends is found where it was, and text
stops where the markup begins. Only raw text that goes to the end of the page would go on into it.
-/

namespace Phrasebook.Markup

open Text Piece

section

variable {tail rest : Text} {c : Char} {piece : Piece} {raw : Option Text} {position : Position}

/-! ## Pieces -/

theorem tag_append {token : Text → Token} (h : Piece.tag rest token = .ok piece) (tail : Text) :
    Piece.tag (rest ++ tail) token = .ok piece := by
  obtain ⟨inside, hinside, rfl⟩ := tagInside?_of_tag h
  obtain ⟨⟨behind, rfl⟩, htag⟩ := tagText_of_tagInside? (by simp) hinside
  have hsame : tagInside? none (inside ++ '>' :: (behind ++ tail)) = some inside := by
    rw [closesQuotes_of_tagText htag]
    simp [tagInside?]
  rw [List.append_assoc, List.cons_append, Piece.tag, hsame]

theorem upTo_append {mark body : Text} {skipped : Nat} {cause : Fault.Cause}
    {token : Text → Option Token} (h : upTo mark skipped cause body token = .ok piece) (tail : Text) :
    upTo mark skipped cause (body ++ tail) token = .ok piece := by
  obtain ⟨inside, behind, hsplit, rfl⟩ := split?_of_upTo h
  obtain ⟨rfl, hends⟩ := split?_eq_some_iff.mp hsplit
  have hsame : split? mark (inside ++ mark ++ behind ++ tail) = some (inside, behind ++ tail) :=
    split?_eq_some_iff.mpr ⟨by simp, hends⟩
  rw [upTo, hsame]

theorem first_declaration {body : Text} (h : ∀ more, body ≠ '-' :: '-' :: more) :
    first '<' ('!' :: body) = upTo ">" 1 .unterminatedTag body fun _ => none := by
  rw [first]
  exact h

theorem text_append (ends : startsMarkup tail = true) (c : Char) (rest : Text) :
    text c (rest ++ tail) = text c rest := by
  have apart {inside behind : Text} (h : NoneInside startsMarkup inside behind) :
      NoneInside startsMarkup inside (behind ++ tail) := by
    intro left right hsplit hne
    rw [← List.append_assoc]
    exact startsMarkup_append_tail (by simp [hne]) (h left right hsplit hne) (Or.inr ends)
  unfold text
  cases hbreak : breakWhere? startsMarkup rest with
  | none =>
    have hnone := apart (breakWhere?_eq_none_iff.mp hbreak).2
    rw [breakWhere?_eq_some_iff.mpr ⟨rfl, ends, hnone⟩]
  | some found =>
    obtain ⟨inside, behind⟩ := found
    obtain ⟨rfl, hfound, hnone⟩ := breakWhere?_eq_some_iff.mp hbreak
    rw [breakWhere?_eq_some_iff.mpr
      ⟨List.append_assoc _ _ _, startsMarkup_append hfound tail, apart hnone⟩]

/-- What is read at the beginning of a text does not depend on markup behind it. -/
theorem first_append (ends : startsMarkup tail = true) (h : first c rest = .ok piece) :
    first c (rest ++ tail) = .ok piece := by
  unfold first at h
  split at h
  · exact upTo_append h tail
  · exact upTo_append h tail
  · rename_i body hcomment
    obtain ⟨inside, behind, hsplit, -⟩ := split?_of_upTo h
    obtain ⟨rfl, -⟩ := split?_eq_some_iff.mp hsplit
    -- A comment that begins in the longer text begins in the shorter one.
    have hplain : ∀ more, inside ++ ">" ++ behind ++ tail ≠ '-' :: '-' :: more := by
      rintro more hmore
      rcases inside with _ | ⟨a, _ | ⟨b, inside⟩⟩
      · cases hmore
      · cases hmore
      · cases hmore
        exact hcomment _ rfl
    rw [List.cons_append, first_declaration hplain]
    exact upTo_append h tail
  · exact tag_append h tail
  · rename_i hcomment hquestion hbang hslash
    split at h
    · rename_i hstarts
      obtain ⟨d, body, rfl, rfl, hd⟩ := letter_of_startsMarkup hstarts hbang hquestion hslash
      rw [List.cons_append, first_of_letter hd]
      exact tag_append h tail
    · rename_i hstarts
      have hplain : startsMarkup (c :: (rest ++ tail)) = false :=
        startsMarkup_append_tail (List.cons_ne_nil _ _) (by simpa using hstarts) (Or.inr ends)
      rw [first_of_plain hplain, text_append ends]
      exact h

theorem width_le_of_upTo {mark body : Text} {skipped : Nat} {cause : Fault.Cause}
    {token : Text → Option Token} (h : upTo mark skipped cause body token = .ok piece) :
    piece.width ≤ skipped + body.length := by
  obtain ⟨inside, behind, hsplit, rfl⟩ := split?_of_upTo h
  obtain ⟨rfl, -⟩ := split?_eq_some_iff.mp hsplit
  simp only [List.length_append]
  omega

theorem width_le_of_tag {token : Text → Token} (h : Piece.tag rest token = .ok piece) :
    piece.width ≤ rest.length := by
  obtain ⟨inside, hinside, rfl⟩ := tagInside?_of_tag h
  obtain ⟨⟨behind, rfl⟩, -⟩ := tagText_of_tagInside? (by simp) hinside
  simp only [List.length_append, List.length_cons]
  omega

theorem width_le_of_first (h : first c rest = .ok piece) : piece.width ≤ rest.length := by
  unfold first at h
  split at h
  · have := width_le_of_upTo h
    simp only [List.length_cons]
    omega
  · have := width_le_of_upTo h
    simp only [List.length_cons]
    omega
  · have := width_le_of_upTo h
    simp only [List.length_cons]
    omega
  · exact width_le_of_tag h
  · split at h
    · exact width_le_of_tag h
    · cases h
      obtain ⟨inside, behind, rfl, htext, -⟩ := exists_of_text c rest
      rw [htext, List.length_append]
      exact Nat.le_add_right _ _

theorem rawText?_append {name : Text} {inside behind : Text}
    (hnone : NoneInside (beginsNoCase ("</" ++ name)) (c :: inside) behind)
    (hcloses : beginsNoCase ("</" ++ name) behind = true) (tail : Text) :
    rawText? name c (inside ++ behind ++ tail) =
      some ⟨some (.leaf (.text (c :: inside))), inside.length⟩ := by
  have hlength := length_le_of_beginsNoCase hcloses
  have hlater : NoneInside (beginsNoCase ("</" ++ name)) (c :: inside) (behind ++ tail) := by
    intro left right hsplit hne
    have hroom := hlength.trans (List.sublist_append_right right behind).length_le
    rw [← List.append_assoc, beginsNoCase_append hroom]
    exact hnone left right hsplit hne
  have hcloses' : beginsNoCase ("</" ++ name) (behind ++ tail) = true := by
    rw [beginsNoCase_append hlength, hcloses]
  obtain ⟨hfirst, hinside⟩ := noneInside_cons.mp hlater
  unfold rawText?
  rw [List.append_assoc]
  simp only [hfirst, Bool.false_eq_true, if_false]
  rw [breakWhere?_eq_some_iff.mpr ⟨rfl, hcloses', hinside⟩]

/-- A piece stays as it is, unless it is raw text that goes to the end. -/
theorem piece_append (ends : startsMarkup tail = true) {text : Text}
    (h : Reader.piece ⟨text, position, raw⟩ c rest = .ok piece) :
    piece.width ≤ rest.length ∧
      ((∀ text', Reader.piece ⟨text', position, raw⟩ c (rest ++ tail) = .ok piece) ∨
        raw ≠ none ∧ piece.width = rest.length ∧ ∃ l, piece.token = some (.leaf l)) := by
  cases raw with
  | none => exact ⟨width_le_of_first h, Or.inl fun _ => first_append ends h⟩
  | some name =>
    rw [Reader.piece_some] at h
    cases hraw : rawText? name c rest with
    | none =>
      rw [hraw] at h
      have hcloses := rawText?_eq_none hraw
      have hnone : rawText? name c (rest ++ tail) = none := by
        unfold rawText?
        simp only
        rw [if_pos]
        exact (beginsNoCase_append (length_le_of_beginsNoCase hcloses) tail).trans hcloses
      refine ⟨width_le_of_first h, Or.inl fun text' => ?_⟩
      rw [Reader.piece_some, hnone]
      exact first_append ends h
    | some piece' =>
      rw [hraw] at h
      cases h
      obtain ⟨inside, behind, rfl, rfl, hnone, rfl | hcloses⟩ := noneInside_of_rawText? hraw
      · exact ⟨by simp, Or.inr ⟨by simp, by simp, _, rfl⟩⟩
      · refine ⟨by simp, Or.inl fun text' => ?_⟩
        rw [Reader.piece_some, rawText?_append hnone hcloses]

/-- In the place of raw text stands a token at least. -/
theorem exists_token_of_raw {text name : Text}
    (h : Reader.piece ⟨text, position, some name⟩ c rest = .ok piece) :
    ∃ token, piece.token = some token := by
  rw [Reader.piece_some] at h
  cases hraw : rawText? name c rest with
  | some piece' =>
    rw [hraw] at h
    cases h
    obtain ⟨inside, behind, -, rfl, -⟩ := noneInside_of_rawText? hraw
    exact ⟨_, rfl⟩
  | none =>
    rw [hraw] at h
    obtain ⟨written, behind, htext, -⟩ := exists_of_closes (rawText?_eq_none hraw)
    cases htext
    obtain ⟨inside, -, rfl⟩ := tagInside?_of_tag h
    exact ⟨_, rfl⟩

/-! ## Streams -/

/-- Whether raw text goes on at the end of some tokens, where `raw` is the element whose raw text
begins before them. -/
def endsRaw : Option Text → List Placed → Bool
  | raw, [] => raw.isSome
  | some _, [⟨.leaf _, _⟩] => true
  | _, placed :: later => endsRaw (Reader.rawTextAfter (some placed.token)) later

theorem endsRaw_cons {placed : Placed} {later : List Placed}
    (h : endsRaw raw (placed :: later) = false) :
    endsRaw (Reader.rawTextAfter (some placed.token)) later = false := by
  unfold endsRaw at h
  split at h
  · rename_i heq
    cases heq
  · cases h
  · rename_i heq
    cases heq
    exact h

namespace Reader

/-- Behind a page that has no fault, and no raw text at its end, markup is read on its own. -/
theorem stream_append (ends : startsMarkup tail = true) (text : Text) (position : Position)
    (raw : Option Text) (hfault : (stream ⟨text, position, raw⟩).fault = none)
    (hraw : endsRaw raw (stream ⟨text, position, raw⟩).tokens = false) :
    stream ⟨text ++ tail, position, raw⟩ =
      let later := stream ⟨tail, position.advance text, none⟩
      ⟨(stream ⟨text, position, raw⟩).tokens ++ later.tokens, later.fault⟩ := by
  induction hn : text.length using Nat.strongRecOn generalizing text position raw with
  | ind n ih =>
    subst hn
    cases text with
    | nil =>
      rw [stream_nil] at hraw ⊢
      rw [show raw = none from Option.not_isSome_iff_eq_none.mp (by simpa [endsRaw] using hraw)]
      rw [List.nil_append, Position.advance_nil]
      rfl
    | cons c rest =>
      cases hpiece : Reader.piece ⟨c :: rest, position, raw⟩ c rest with
      | error cause =>
        rw [stream_cons, hpiece] at hfault
        cases hfault
      | ok piece =>
        rw [stream_of_piece hpiece] at hfault hraw ⊢
        obtain ⟨hwidth, hsame | ⟨hmark, hend, l, htoken⟩⟩ := piece_append ends hpiece
        · have hlater : endsRaw (rawTextAfter piece.token)
              (behind ⟨c :: rest, position, raw⟩ c rest piece).stream.tokens = false := by
            cases htoken : piece.token with
            | some token =>
              simp only [htoken] at hraw
              exact endsRaw_cons hraw
            | none =>
              simp only [htoken] at hraw
              cases raw with
              | none => exact hraw
              | some name =>
                obtain ⟨token, hsome⟩ := exists_token_of_raw hpiece
                rw [htoken] at hsome
                cases hsome
          have hih := ih (rest.drop piece.width).length
            (by simp only [List.length_drop, List.length_cons]; omega) (rest.drop piece.width)
            (position.advance (c :: rest.take piece.width)) (rawTextAfter piece.token) hfault hlater rfl
          rw [← Position.advance_append, List.cons_append, List.take_append_drop] at hih
          rw [List.cons_append, stream_of_piece (hsame _)]
          simp only [behind, List.drop_append_of_le_length hwidth, List.take_append_of_le_length hwidth]
          rw [hih, List.append_assoc]
        · -- The raw text would take the markup in.
          simp only [htoken, behind, hend, List.drop_length, stream_nil] at hraw
          cases raw with
          | none => exact absurd rfl hmark
          | some name => cases hraw

end Reader

end

end Phrasebook.Markup
