import Phrasebook.Proofs.Markup.Written

/-!
# Markup that has been collapsed

What is not blank of a start tag decides whether it ends, and a comment or a block of server code ends
where it did. So from collapsed markup the same start tags are read.
-/

namespace Phrasebook.Markup

open Text Piece

/-! ## Reading up to a start tag -/

/-- Of the tokens that are read from here one is a start tag. -/
def HoldsTag (text : Text) : Prop :=
  ∀ position, ∃ placed ∈ (Reader.stream ⟨text, position, none⟩).tokens, ∃ tag,
    placed.token = .openTag tag

section

variable {c : Char} {inside rest tail : Text} {token : Option Token} {tag : Tag} {width : Nat}

/-- Behind a piece that is no start tag, reading goes on. -/
theorem HoldsTag.behind (h : HoldsTag tail)
    (hpiece : first c (inside ++ tail) = .ok ⟨token, inside.length⟩)
    (hraw : Reader.rawTextAfter token = none) : HoldsTag (c :: (inside ++ tail)) := by
  intro position
  obtain ⟨placed, hin, htag⟩ := h (position.advance (c :: inside))
  refine ⟨placed, ?_, htag⟩
  rw [Reader.stream_cons, Reader.piece_none, hpiece]
  simp only [Reader.behind, List.drop_left, List.take_left, hraw]
  cases token with
  | none => exact hin
  | some token => exact List.mem_cons_of_mem _ hin

theorem holdsTag_of_first (h : first c rest = .ok ⟨some (.openTag tag), width⟩) :
    HoldsTag (c :: rest) := by
  intro position
  refine ⟨⟨.openTag tag, position⟩, ?_, tag, rfl⟩
  rw [Reader.stream_cons, Reader.piece_none, h]
  exact List.mem_cons_self

/-- The quote that is open behind a character in a tag. -/
def quoteBehind : Option Char → Char → Option Char
  | some q, c => if c = q then none else some q
  | none, c => if c = '"' ∨ c = '\'' then some c else none

theorem isSome_tagInside?_cons (quote : Option Char) (c : Char) (text : Text) :
    (tagInside? quote (c :: text)).isSome =
      ((quote = none && c = '>') || (tagInside? (quoteBehind quote c) text).isSome) := by
  cases quote with
  | none => by_cases hend : c = '>' <;> simp [tagInside?, quoteBehind, hend]
  | some q => simp [tagInside?, quoteBehind]

section

variable {quote : Option Char}

/-- No quote that is open is blank. -/
theorem isBlank_of_quoteBehind (hquote : ∀ q, quote = some q → isBlank q = false) (hc : isBlank c = false)
    (q : Char) (h : quoteBehind quote c = some q) : isBlank q = false := by
  cases quote with
  | none =>
    obtain ⟨-, ⟨⟩⟩ := Option.ite_none_right_eq_some.mp h
    exact hc
  | some old =>
    obtain ⟨-, h⟩ := Option.ite_none_left_eq_some.mp h
    exact hquote q h

theorem quoteBehind_blank (hquote : ∀ q, quote = some q → isBlank q = false) (hc : isBlank c = true) :
    quoteBehind quote c = quote := by
  have hne (mark : Char) (hmark : isBlank mark = false) : c ≠ mark := by
    rintro rfl
    rw [hmark] at hc
    cases hc
  cases quote with
  | none => exact if_neg (by simp [hne '"' (by decide), hne '\'' (by decide)])
  | some q => exact if_neg (hne q (hquote q rfl))

/-- Whether a tag ends is a matter of what is not blank in it. -/
theorem isSome_tagInside?_solids (hquote : ∀ q, quote = some q → isBlank q = false) (text : Text) :
    (tagInside? quote (solids text)).isSome = (tagInside? quote text).isSome := by
  induction text generalizing quote with
  | nil => cases quote <;> rfl
  | cons c text ih =>
    cases hc : isBlank c with
    | true =>
      have hskip : solids (c :: text) = solids text := List.filter_cons_of_neg (by simp [hc])
      have hend : c ≠ '>' := by
        rintro rfl
        cases hc
      rw [hskip, ih hquote, isSome_tagInside?_cons, quoteBehind_blank hquote hc, decide_eq_false hend,
        Bool.and_false, Bool.false_or]
    | false =>
      have hkeep : solids (c :: text) = c :: solids text := List.filter_cons_of_pos (by simp [hc])
      rw [hkeep, isSome_tagInside?_cons, isSome_tagInside?_cons, ih (isBlank_of_quoteBehind hquote hc)]

end

end

/-! ## Markup that is collapsed -/

/-- Collapsed, the text begins with markup and holds a start tag. -/
structure Tagged (text : Text) : Prop where
  starts : startsMarkup (collapse text) = true
  holds : HoldsTag (collapse text)

namespace Tagged

variable {text behind : Text}

theorem ne_nil (h : Tagged text) : collapse text ≠ [] := by
  intro hnil
  have hstarts := h.starts
  rw [hnil] at hstarts
  cases hstarts

/-- A space before the markup is a text of its own. -/
theorem holdsTag_collapseBehind (h : Tagged text) : HoldsTag (collapseBehind text) := by
  rcases collapseBehind_cases text with heq | heq
  · rw [heq]
    exact h.holds
  · have hbreak : breakWhere? startsMarkup (collapse text) = some ([], collapse text) :=
      breakWhere?_eq_some_iff.mpr ⟨rfl, h.starts, noneInside_nil _ _⟩
    have hpiece : first ' ' ([] ++ collapse text) = .ok ⟨some (.leaf (.text [' '])), 0⟩ := by
      rw [List.nil_append, first_of_plain rfl, Piece.text, hbreak]
      rfl
    rw [heq]
    exact h.holds.behind hpiece rfl

theorem blank (h : Tagged behind) {content : Text} (hblank : allBlank content = true) :
    Tagged (content ++ behind) := by
  have hsame : collapse (content ++ behind) = collapse behind := by
    induction content with
    | nil => rfl
    | cons c content ih =>
      simp only [allBlank, List.all_cons, Bool.and_eq_true] at hblank
      rw [List.cons_append, collapse_cons_blank hblank.1, ih hblank.2]
  exact ⟨by rw [hsame]; exact h.starts, by rw [hsame]; exact h.holds⟩

/-- A piece that begins and ends with marks is passed, whatever token it is. -/
theorem piece (front back : Text) {content : Text} (h : Tagged behind)
    (hfront : ∀ c ∈ '<' :: front, isBlank c = false) (hback : ∀ c ∈ back, isBlank c = false)
    (hne : back ≠ []) (ends : EndsAt back content)
    (hstarts : ∀ rest, startsMarkup ('<' :: front ++ rest) = true)
    (hfirst : ∀ inside, EndsAt back inside → ∀ tail, ∃ token, Reader.rawTextAfter token = none ∧
      first '<' (front ++ inside ++ back ++ tail) = .ok ⟨token, (front ++ inside ++ back).length⟩) :
    Tagged ('<' :: front ++ content ++ back ++ behind) := by
  obtain ⟨⟨inside, hinside, hends⟩, -⟩ := exists_collapse_before hne hback behind ends
  have hcollapse : collapse ('<' :: front ++ content ++ back ++ behind) =
      '<' :: (front ++ inside ++ back ++ collapseBehind behind) := by
    rw [List.append_assoc, List.append_assoc, collapse_append (by simp) hfront, hinside]
    simp
  obtain ⟨token, hraw, hpiece⟩ := hfirst inside hends (collapseBehind behind)
  refine ⟨?_, ?_⟩
  · rw [hcollapse]
    simpa using hstarts (inside ++ (back ++ collapseBehind behind))
  · rw [hcollapse]
    exact h.holdsTag_collapseBehind.behind hpiece hraw

theorem comment (h : Tagged behind) {content : Text} (ends : EndsAt "-->" content) :
    Tagged (Leaf.write (.comment content) ++ behind) :=
  piece "!--" "-->" h (by simp [isBlank, blankRanges]) (by simp [isBlank, blankRanges])
    (by decide) ends (fun _ => rfl)
    fun inside hinside tail => ⟨some (.leaf (.comment inside)), rfl, first_comment hinside tail⟩

theorem serverCode (h : Tagged behind) {code : Text} (ends : EndsAt "?>" code) :
    Tagged (Leaf.write (.serverCode code) ++ behind) :=
  piece "?" "?>" h (by simp [isBlank, blankRanges]) (by simp [isBlank, blankRanges])
    (by decide) ends (fun _ => rfl)
    fun inside hinside tail => ⟨_, by split <;> rfl, first_serverCode hinside tail⟩

end Tagged

theorem tagged_write {tag : Tag} (legal : tag.Legal) (omitted behind : Text) :
    Tagged (tag.write omitted ++ behind) := by
  obtain ⟨d, name, hname, hd⟩ := (legal.without omitted).head
  obtain ⟨body, hbody⟩ : ∃ body, (tag.without omitted).inside = d :: body := by
    rw [Tag.inside, hname]
    exact ⟨_, rfl⟩
  have hsolid : isBlank d = false := not_isBlank_of_isTagNamePart (isTagNamePart_of_isAlpha hd)
  have hcollapse : collapse (tag.write omitted ++ behind) =
      '<' :: d :: collapseBehind (body ++ '>' :: behind) := by
    have hmark : ∀ c ∈ ['<', d], isBlank c = false := by
      rw [List.forall_mem_cons, List.forall_mem_singleton]
      exact ⟨by decide, hsolid⟩
    rw [Tag.write_eq_inside, hbody]
    simpa using collapse_append (by simp) hmark (body ++ '>' :: behind)
  have hends : (tagInside? none (d :: collapseBehind (body ++ '>' :: behind))).isSome = true := by
    have hclosed := tagInside?_of_closesQuotes (closesQuotes_inside (legal.without omitted)) behind
    have hsame : solids (d :: collapseBehind (body ++ '>' :: behind)) =
        solids (d :: (body ++ '>' :: behind)) := by
      have hbehind := solids_collapseBehind (body ++ '>' :: behind)
      simp only [solids] at hbehind ⊢
      rw [List.filter_cons, List.filter_cons, hbehind]
    rw [← isSome_tagInside?_solids (by simp), hsame, isSome_tagInside?_solids (by simp),
      ← List.cons_append, ← hbody, hclosed]
    rfl
  obtain ⟨inside, hinside⟩ := Option.isSome_iff_exists.mp hends
  refine ⟨by rw [hcollapse]; simp [startsMarkup, hd], ?_⟩
  rw [hcollapse]
  exact holdsTag_of_first (by rw [first_of_letter hd, Piece.tag, hinside])

end Phrasebook.Markup
