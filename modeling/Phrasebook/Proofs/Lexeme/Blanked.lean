import Phrasebook.Proofs.Lexeme.Segmentation

/-!
# Blanked comments

A comment keeps apart what stands on its two sides, and a space does so too. A source whose comments are
written over with spaces, byte by byte, falls into the same lexemes in the same places, less the comments.
-/

namespace Phrasebook.Lexeme

open Text

/-! ## Writing over comments -/

/-- Whether the byte at `offset` belongs to a comment. -/
def inComment (lexemes : List Lexeme) (offset : Nat) : Bool :=
  lexemes.any fun lexeme =>
    lexeme.isComment && (lexeme.position.offset ≤ offset && offset < lexeme.stop)

/-- The text, which begins at `offset`, with a space for each byte of a comment. Line breaks stay. -/
def blankFrom (lexemes : List Lexeme) (offset : Nat) : Text → Text
  | [] => []
  | c :: rest =>
    (if inComment lexemes offset ∧ c ≠ '\n' then List.replicate c.utf8Size ' ' else [c]) ++
      blankFrom lexemes (offset + c.utf8Size) rest

/-- The source with its comments blanked, `lexemes` being those of the source. -/
def blanked (lexemes : List Lexeme) (source : Text) : Text := blankFrom lexemes 0 source

/-- What becomes of a character in a comment. -/
def blankedChar (c : Char) : Text := if c = '\n' then ['\n'] else List.replicate c.utf8Size ' '

section

variable {lexemes : List Lexeme} {offset : Nat}

theorem blankFrom_append (lexemes : List Lexeme) (offset : Nat) (a b : Text) :
    blankFrom lexemes offset (a ++ b) =
      blankFrom lexemes offset a ++ blankFrom lexemes (offset + byteLength a) b := by
  induction a generalizing offset with
  | nil => rfl
  | cons c a ih =>
    rw [List.cons_append, blankFrom, blankFrom, ih, byteLength_cons, List.append_assoc, Nat.add_assoc]

/-- Text that no comment covers stays. -/
theorem blankFrom_of_uncovered {text : Text} (h : ∀ lexeme ∈ lexemes, lexeme.isComment = true →
    lexeme.stop ≤ offset ∨ offset + byteLength text ≤ lexeme.position.offset) :
    blankFrom lexemes offset text = text := by
  induction text generalizing offset with
  | nil => rfl
  | cons c rest ih =>
    have hpos := c.utf8Size_pos
    have hfirst : inComment lexemes offset = false := by
      rw [inComment, List.any_eq_false]
      intro lexeme hlexeme hin
      simp only [Bool.and_eq_true, decide_eq_true_eq] at hin
      have := h lexeme hlexeme hin.1
      rw [byteLength_cons] at this
      omega
    have hrest : blankFrom lexemes (offset + c.utf8Size) rest = rest := by
      apply ih
      intro lexeme hlexeme hcomment
      have := h lexeme hlexeme hcomment
      rw [byteLength_cons] at this
      omega
    rw [blankFrom, hfirst, hrest]
    simp

/-- Text inside a comment is blanked as a whole. -/
theorem blankFrom_of_covered {text : Text} {comment : Lexeme} (hmem : comment ∈ lexemes)
    (hcomment : comment.isComment = true) (hstart : comment.position.offset ≤ offset)
    (hstop : offset + byteLength text ≤ comment.stop) :
    blankFrom lexemes offset text = text.flatMap blankedChar := by
  induction text generalizing offset with
  | nil => rfl
  | cons c rest ih =>
    have hpos := c.utf8Size_pos
    rw [byteLength_cons] at hstop
    have hfirst : inComment lexemes offset = true := by
      rw [inComment, List.any_eq_true]
      refine ⟨comment, hmem, ?_⟩
      simp only [hcomment, Bool.true_and, Bool.and_eq_true, decide_eq_true_eq]
      omega
    rw [blankFrom, hfirst, ih (by omega) (by omega), List.flatMap_cons, blankedChar]
    by_cases hc : c = '\n'
    · simp [hc]
    · simp [hc]

/-- What is blanked begins as it did, or with a space. -/
theorem head?_blankFrom (lexemes : List Lexeme) (offset : Nat) (text : Text) :
    (blankFrom lexemes offset text).head? = text.head? ∨
      (blankFrom lexemes offset text).head? = some ' ' := by
  cases text with
  | nil => exact .inl rfl
  | cons c rest =>
    have hpos := c.utf8Size_pos
    rw [blankFrom]
    split
    · right
      simp [List.head?_append, List.head?_replicate]
      omega
    · exact .inl rfl

end

section

variable {text : Text}

theorem isSpacing_of_mem_blanked : ∀ c ∈ text.flatMap blankedChar, isSpacing c = true := by
  intro c hc
  obtain ⟨d, -, hd⟩ := List.mem_flatMap.mp hc
  unfold blankedChar at hd
  split at hd
  · rw [List.mem_singleton.mp hd]
    rfl
  · rw [List.eq_of_mem_replicate hd]
    rfl

theorem byteLength_replicate_space (n : Nat) : byteLength (List.replicate n ' ') = n := by
  induction n with
  | zero => rfl
  | succ n ih =>
    rw [List.replicate_succ, byteLength_cons, ih, show ' '.utf8Size = 1 from rfl, Nat.add_comm]

/-- Blanking moves nothing: each character takes as many bytes as before, and lines end where they did. -/
theorem advance_blanked (position : Position) (text : Text) :
    position.advance (text.flatMap blankedChar) = position.advance text := by
  induction text generalizing position with
  | nil => rfl
  | cons c rest ih =>
    have hchar : position.advance (blankedChar c) = position.advance [c] := by
      unfold blankedChar
      split
      · rename_i hc
        rw [hc]
      · rename_i hc
        simp [Position.advance, byteLength_replicate_space, newlines, List.count_replicate, hc]
    rw [List.flatMap_cons, Position.advance_append, hchar, ih, ← Position.advance_append]
    rfl

end

/-! ## Where words end -/

/-- Spacing ends every token but a line comment. -/
theorem Word.stopsAt_of_isSpacing {word : Word} {c : Char} (hcode : word.kind ≠ .lineComment)
    (h : isSpacing c = true) : word.StopsAt c := by
  simp only [isSpacing, decide_eq_true_eq, List.mem_cons, List.not_mem_nil, or_false] at h
  obtain ⟨kind, text⟩ := word
  have hkind : kind.goesOn c = false := by
    rcases h with rfl | rfl | rfl | rfl | rfl <;> cases kind <;>
      first | rfl | exact absurd rfl hcode
  refine ⟨hkind, fun _ => ?_⟩
  rcases h with rfl | rfl | rfl | rfl | rfl <;> decide

/-- Whether a word that is no line comment ends does not depend on more than the character behind it, and
spacing ends every word. -/
theorem Word.EndsBefore.of_head {kind : Kind} {text behind behind' : Text} (htoken : IsToken kind text)
    (hcode : kind ≠ .lineComment) (h : Word.EndsBefore ⟨kind, text⟩ behind)
    (hhead : behind'.head? = behind.head? ∨ ∃ c, isSpacing c = true ∧ behind'.head? = some c) :
    Word.EndsBefore ⟨kind, text⟩ behind' := by
  rw [endsBefore_iff htoken] at h ⊢
  intro d hd
  rcases hhead with heq | ⟨c, hc, heq⟩
  · exact h d (heq ▸ hd)
  · obtain rfl : c = d := Option.some.inj (heq.symm.trans hd)
    exact Word.stopsAt_of_isSpacing hcode hc

/-! ## Reading what is blanked -/

theorem Segmented.spaces {stop position : Position} {left spaces source : Text} {lexemes : List Lexeme}
    (hspaces : ∀ c ∈ spaces, isSpacing c = true)
    (later : Segmented stop left (position.advance spaces) source lexemes) :
    Segmented stop left position (spaces ++ source) lexemes := by
  induction spaces generalizing position with
  | nil => simpa using later
  | cons c spaces ih =>
    rw [List.forall_mem_cons] at hspaces
    refine .spacing hspaces.1 (ih hspaces.2 ?_)
    rw [← Position.advance_append]
    exact later

/-- Of all the lexemes, those that are not among the segments stand before them. -/
theorem Segmented.blankFrom {stop position : Position} {source : Text} {all lexemes : List Lexeme}
    (h : Segmented stop [] position source lexemes)
    (hall : ∀ lexeme ∈ all, lexeme ∈ lexemes ∨ lexeme.stop ≤ position.offset)
    (hmem : ∀ lexeme ∈ lexemes, lexeme ∈ all) :
    Segmented stop [] position (blankFrom all position.offset source) (withoutComments lexemes) := by
  induction h with
  | done => exact .done
  | @spacing position c source lexemes spaces later ih =>
    have hnext : (position.advance [c]).offset = position.offset + byteLength [c] := rfl
    have hkept : Lexeme.blankFrom all position.offset [c] = [c] := by
      apply blankFrom_of_uncovered
      intro lexeme hlexeme _
      rcases hall lexeme hlexeme with hin | hbefore
      · exact .inr (later.order.1 lexeme hin)
      · exact .inl hbefore
    rw [← List.singleton_append, blankFrom_append, hkept]
    refine .spacing spaces (ih ?_ hmem)
    exact fun lexeme hlexeme => (hall lexeme hlexeme).imp_right (by omega)
  | @lexeme position kind text source lexemes leads later ih =>
    have hnext : (position.advance text).offset = position.offset + byteLength text := rfl
    rw [List.forall_mem_cons] at hmem
    have hlater := ih (fun other hother => by
      rcases hall other hother with hin | hbefore
      · rcases List.mem_cons.mp hin with rfl | hin
        · exact .inr (Nat.le_refl _)
        · exact .inl hin
      · exact .inr (by omega)) hmem.2
    rw [blankFrom_append]
    cases hcomment : kind.isComment with
    | true =>
      rw [blankFrom_of_covered hmem.1 hcomment (Nat.le_refl _) (Nat.le_refl _)]
      have hdrop : withoutComments (⟨kind, text, position⟩ :: lexemes) = withoutComments lexemes := by
        simp [withoutComments, isComment, hcomment]
      rw [hdrop]
      refine Segmented.spaces isSpacing_of_mem_blanked ?_
      rwa [advance_blanked]
    | false =>
      have hkept : Lexeme.blankFrom all position.offset text = text := by
        apply blankFrom_of_uncovered
        intro other hother hcommentary
        rcases hall other hother with hin | hbefore
        · rcases List.mem_cons.mp hin with rfl | hin
          · exact absurd hcommentary (by simp [isComment, hcomment])
          · exact .inr (later.order.1 other hin)
        · exact .inl hbefore
      have hkeep : withoutComments (⟨kind, text, position⟩ :: lexemes) =
          ⟨kind, text, position⟩ :: withoutComments lexemes := by
        simp [withoutComments, isComment, hcomment]
      rw [hkept, hkeep]
      refine .lexeme (leads_iff_endsBefore.mpr ?_) hlater
      have hcode : kind ≠ .lineComment := by
        rintro rfl
        cases hcomment
      exact Word.EndsBefore.of_head leads.token hcode (leads_iff_endsBefore.mp leads)
        ((head?_blankFrom ..).imp_right fun hspace => ⟨' ', rfl, hspace⟩)

/-- A source with its comments blanked has the lexemes of the source, less the comments. -/
theorem readAll_blanked {source : Text} {lexemes : List Lexeme} (h : readAll source = .ok lexemes) :
    readAll (blanked lexemes source) = .ok (withoutComments lexemes) := by
  obtain ⟨stop, hsegmented⟩ := readFrom_eq_ok_iff.mp h
  refine readFrom_eq_ok_iff.mpr ⟨stop, ?_⟩
  exact hsegmented.blankFrom (fun _ hlexeme => .inl hlexeme) fun _ hlexeme => hlexeme

end Phrasebook.Lexeme
