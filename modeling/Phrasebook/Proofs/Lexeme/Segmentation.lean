import Phrasebook.Lexeme.Placed
import Phrasebook.Proofs.Lexeme.Grammar
import Phrasebook.Proofs.Position

/-!
# How a source falls into lexemes

A source is read if it is a sequence of spacing and of lexemes, each the longest token at its place. If
it is not, the reader gets as far as a source can be cut, and names the place where no token stands.
-/

namespace Phrasebook.Lexeme

open Text

/-! ## Segments -/

/-- From `position` on, `source` is spacing and these lexemes, up to what is `left` of it, which begins
at `stop`. -/
inductive Segmented (stop : Position) (left : Text) : Position → Text → List Lexeme → Prop where
  | done : Segmented stop left stop left []
  | spacing {position : Position} {c : Char} {source : Text} {lexemes : List Lexeme}
    (spaces : isSpacing c = true) (later : Segmented stop left (position.advance [c]) source lexemes) :
    Segmented stop left position (c :: source) lexemes
  | lexeme {position : Position} {kind : Kind} {text source : Text} {lexemes : List Lexeme}
    (leads : Leads kind text (text ++ source))
    (later : Segmented stop left (position.advance text) source lexemes) :
    Segmented stop left position (text ++ source) (⟨kind, text, position⟩ :: lexemes)

/-- Why a source that begins with no token cannot be read. -/
inductive Refused : Text → Fault.Cause → Prop where
  | string (quote : Quote) (rest : Text) : Refused (quote.mark :: rest) .unterminatedString
  | comment (rest : Text) : Refused ("/*" ++ rest) .unterminatedComment
  | character {c : Char} {rest : Text} (unquoted : ∀ quote, c ≠ Quote.mark quote)
    (code : ¬ "/*".toList <+: c :: rest) : Refused (c :: rest) (.unexpectedCharacter c)

/-- No token stands at the front of what is left. -/
structure Stuck (left : Text) (cause : Fault.Cause) : Prop where
  something : left ≠ []
  unspaced : ∀ c ∈ left.head?, isSpacing c = false
  nothing : ∀ kind text, ¬ Candidate kind text left
  refused : Refused left cause

theorem refused_iff {c : Char} {rest : Text} {cause : Fault.Cause} :
    Refused (c :: rest) cause ↔ refusal c rest = cause := by
  have hcomment : c = '/' ∧ begins "*" rest = true ↔ "/*".toList <+: c :: rest := by
    rw [begins_iff]
    simp [List.cons_prefix_cons, eq_comm]
  unfold refusal
  simp only [hcomment]
  constructor
  · intro h
    cases h with
    | string quote rest =>
      rw [ofChar?_eq_some_iff.mpr rfl]
      rfl
    | comment rest => rw [if_neg (by decide), if_pos ⟨rest, rfl⟩]
    | character unquoted code =>
      rw [if_neg, if_neg code]
      rw [Option.isSome_iff_exists]
      rintro ⟨quote, h⟩
      exact unquoted quote (ofChar?_eq_some_iff.mp h)
  · rintro rfl
    split
    · rename_i h
      obtain ⟨quote, hquote⟩ := Option.isSome_iff_exists.mp h
      rw [ofChar?_eq_some_iff.mp hquote]
      exact .string quote rest
    · rename_i hunquoted
      split
      · rename_i h
        obtain ⟨behind, hbehind⟩ := h
        rw [← hbehind]
        exact .comment behind
      · rename_i hcode
        refine .character ?_ hcode
        intro quote hquote
        rw [ofChar?_eq_some_iff.mpr hquote] at hunquoted
        exact hunquoted rfl

theorem stuck_iff {c : Char} {rest : Text} {cause : Fault.Cause} :
    Stuck (c :: rest) cause ↔
      isSpacing c = false ∧ first? c rest = none ∧ refusal c rest = cause := by
  rw [first?_eq_none_iff, ← refused_iff]
  constructor
  · rintro ⟨-, unspaced, nothing, refused⟩
    exact ⟨unspaced c rfl, nothing, refused⟩
  · rintro ⟨hspacing, hnothing, hrefused⟩
    refine ⟨by simp, ?_, hnothing, hrefused⟩
    rintro d ⟨⟩
    exact hspacing

/-! ## The reader follows the segments -/

section

variable {stop position : Position} {left source : Text} {lexemes : List Lexeme}

theorem Segmented.readFrom (h : Segmented stop left position source lexemes) :
    readFrom position source = (readFrom stop left).map (lexemes ++ ·) := by
  induction h with
  | done => cases Lexeme.readFrom stop left <;> rfl
  | spacing spaces _ ih => rw [readFrom_spacing spaces, ih]
  | lexeme leads _ ih =>
    rw [readFrom_word (leads_iff_endsBefore.mp leads), ih]
    cases Lexeme.readFrom stop left <;> rfl

theorem Stuck.readFrom {cause : Fault.Cause} (h : Stuck left cause) (position : Position) :
    readFrom position left = .error ⟨cause, position⟩ := by
  match left with
  | [] => exact absurd rfl h.something
  | c :: rest =>
    obtain ⟨hspacing, hfirst, rfl⟩ := stuck_iff.mp h
    rw [Lexeme.readFrom, if_neg (by simp [hspacing]), hfirst]

/-- Every source falls into lexemes as far as tokens stand in it. -/
theorem exists_segmented (position : Position) (source : Text) :
    ∃ stop left lexemes, Segmented stop left position source lexemes ∧
      (left = [] ∨ ∃ cause, Stuck left cause) := by
  fun_induction Lexeme.readFrom position source with
  | case1 position => exact ⟨position, [], [], .done, .inl rfl⟩
  | case2 position c rest hspacing ih =>
    obtain ⟨stop, left, lexemes, hsegmented, hleft⟩ := ih
    exact ⟨stop, left, lexemes, .spacing hspacing hsegmented, hleft⟩
  | case3 position c rest hspacing hfirst =>
    have : isSpacing c = false := by simpa using hspacing
    exact ⟨position, c :: rest, [], .done, .inr ⟨_, stuck_iff.mpr ⟨this, hfirst, rfl⟩⟩⟩
  | case4 position c rest hspacing kind width hfirst text ih =>
    obtain ⟨stop, left, lexemes, hsegmented, hleft⟩ := ih
    refine ⟨stop, left, ⟨kind, text, position⟩ :: lexemes, ?_, hleft⟩
    obtain ⟨inside, behind, rfl, rfl, -⟩ := isToken_of_first? hfirst
    rw [List.drop_left] at hsegmented
    have htext : text = c :: inside := congrArg (c :: ·) List.take_left
    have hspacing : isSpacing c = false := by simpa using hspacing
    have hends : Word.EndsBefore ⟨kind, text⟩ behind := ⟨c, inside, htext, hspacing, hfirst⟩
    have := Segmented.lexeme (leads_iff_endsBefore.mpr hends) hsegmented
    rwa [htext] at this ⊢

theorem readFrom_eq_ok_iff :
    Lexeme.readFrom position source = .ok lexemes ↔ ∃ stop, Segmented stop [] position source lexemes := by
  constructor
  · intro h
    obtain ⟨stop, left, all, hsegmented, rfl | ⟨cause, hstuck⟩⟩ := exists_segmented position source
    · rw [hsegmented.readFrom, readFrom_nil] at h
      cases h
      exact ⟨stop, by simpa using hsegmented⟩
    · rw [hsegmented.readFrom, hstuck.readFrom] at h
      cases h
  · rintro ⟨stop, h⟩
    rw [h.readFrom, readFrom_nil]
    exact congrArg Except.ok (List.append_nil lexemes)

theorem readFrom_eq_error_iff {fault : Fault} :
    Lexeme.readFrom position source = .error fault ↔
      ∃ left lexemes, Segmented fault.position left position source lexemes ∧
        Stuck left fault.cause := by
  constructor
  · intro h
    obtain ⟨stop, left, all, hsegmented, rfl | ⟨cause, hstuck⟩⟩ := exists_segmented position source
    · rw [hsegmented.readFrom, readFrom_nil] at h
      cases h
    · rw [hsegmented.readFrom, hstuck.readFrom] at h
      cases h
      exact ⟨left, all, hsegmented, hstuck⟩
  · rintro ⟨left, all, hsegmented, hstuck⟩
    rw [hsegmented.readFrom, hstuck.readFrom]
    rfl

/-- What stands before the place where the reader is stuck can be read by itself. -/
theorem Segmented.cut (h : Segmented stop left position source lexemes) :
    ∃ before, source = before ++ left ∧ Segmented stop [] position before lexemes := by
  induction h with
  | done => exact ⟨[], rfl, .done⟩
  | spacing spaces _ ih =>
    obtain ⟨before, rfl, hbefore⟩ := ih
    exact ⟨_ :: before, rfl, .spacing spaces hbefore⟩
  | lexeme leads _ ih =>
    obtain ⟨before, rfl, hbefore⟩ := ih
    exact ⟨_ ++ before, (List.append_assoc ..).symm, .lexeme leads.of_append hbefore⟩

/-! ## Places -/

/-- Each lexeme stands in `whole` where it says, and what is left where the reader has got to. -/
theorem Segmented.pointsAt (h : Segmented stop left position source lexemes) {whole behind : Text}
    (hposition : position.PointsAt whole (source ++ behind)) :
    stop.PointsAt whole (left ++ behind) ∧
      ∀ lexeme ∈ lexemes, ∃ later, Leads lexeme.kind lexeme.text (lexeme.text ++ later) ∧
        lexeme.position.PointsAt whole (lexeme.text ++ (later ++ behind)) := by
  induction h with
  | done => exact ⟨hposition, by simp⟩
  | @spacing position c source lexemes spaces _ ih =>
    have hnext : (position.advance [c]).PointsAt whole (source ++ behind) :=
      Position.PointsAt.advance hposition
    exact ih hnext
  | @lexeme position kind text source lexemes leads _ ih =>
    rw [List.append_assoc] at hposition
    obtain ⟨hstop, hothers⟩ := ih hposition.advance
    exact ⟨hstop, List.forall_mem_cons.mpr ⟨⟨source, leads, hposition⟩, hothers⟩⟩

theorem Segmented.text_inside (h : Segmented stop left position source lexemes) :
    ∀ lexeme ∈ lexemes, lexeme.text <:+: source := by
  induction h with
  | done => simp
  | spacing spaces _ ih =>
    exact fun lexeme hlexeme => (ih lexeme hlexeme).trans (List.suffix_cons _ _).isInfix
  | lexeme leads _ ih =>
    refine List.forall_mem_cons.mpr ⟨(List.prefix_append _ _).isInfix, ?_⟩
    exact fun lexeme hlexeme => (ih lexeme hlexeme).trans (List.suffix_append _ _).isInfix

/-- Lexemes do not overlap. -/
theorem Segmented.order (h : Segmented stop left position source lexemes) :
    (∀ lexeme ∈ lexemes, position.offset ≤ lexeme.position.offset) ∧
      lexemes.Pairwise fun a b => a.stop ≤ b.position.offset := by
  induction h with
  | done => simp
  | spacing spaces _ ih =>
    refine ⟨fun lexeme hlexeme => ?_, ih.2⟩
    exact Nat.le_trans (Nat.le_add_right _ _) (ih.1 lexeme hlexeme)
  | @lexeme position kind text source lexemes leads _ ih =>
    refine ⟨List.forall_mem_cons.mpr ⟨Nat.le_refl _, fun lexeme hlexeme => ?_⟩, ?_⟩
    · exact Nat.le_trans (Nat.le_add_right _ _) (ih.1 lexeme hlexeme)
    · exact List.pairwise_cons.mpr ⟨ih.1, ih.2⟩

theorem Segmented.stop_le (h : Segmented stop left position source lexemes) :
    ∀ lexeme ∈ lexemes, lexeme.stop ≤ position.offset + byteLength source := by
  induction h with
  | done => simp
  | spacing spaces _ ih =>
    intro lexeme hlexeme
    have := ih lexeme hlexeme
    simp only [Position.advance, byteLength] at this ⊢
    omega
  | lexeme leads _ ih =>
    refine List.forall_mem_cons.mpr ⟨?_, fun lexeme hlexeme => ?_⟩
    · simp [Lexeme.stop]
    · have := ih lexeme hlexeme
      simp only [Position.advance, byteLength_append] at this ⊢
      omega

/-- A character that no lexeme covers is spacing. -/
theorem Segmented.gaps (h : Segmented stop [] position source lexemes) {before behind : Text} {c : Char}
    (hsource : source = before ++ c :: behind)
    (uncovered : ∀ lexeme ∈ lexemes, position.offset + byteLength before < lexeme.position.offset ∨
      lexeme.stop ≤ position.offset + byteLength before) : isSpacing c = true := by
  induction h generalizing before with
  | done => simp at hsource
  | @spacing position d source lexemes spaces _ ih =>
    cases before with
    | nil =>
      obtain ⟨rfl, -⟩ := List.cons_eq_cons.mp hsource
      exact spaces
    | cons _ before =>
      obtain ⟨rfl, rfl⟩ := List.cons_eq_cons.mp hsource
      apply ih rfl
      simpa [Position.advance, Nat.add_assoc] using uncovered
  | @lexeme position kind text source lexemes leads _ ih =>
    obtain ⟨hfirst, hothers⟩ := List.forall_mem_cons.mp uncovered
    rcases List.append_eq_append_iff.mp hsource with ⟨inside, rfl, rfl⟩ | ⟨inside, rfl, hinside⟩
    · apply ih rfl
      simpa [Position.advance, Nat.add_assoc] using hothers
    · cases inside with
      | nil =>
        have hnone : source = [] ++ c :: behind := hinside.symm
        apply ih hnone
        simpa [Position.advance] using hothers
      | cons d inside =>
        -- The character belongs to the lexeme itself.
        have := Char.utf8Size_pos d
        simp only [Lexeme.stop, byteLength_append, byteLength] at hfirst
        omega

end

/-- The lexemes stand one behind the other in the source, each a longest token in its true place. -/
structure InPlace (source : Text) (lexemes : List Lexeme) : Prop where
  places : ∀ lexeme ∈ lexemes, ∃ behind, Leads lexeme.kind lexeme.text (lexeme.text ++ behind) ∧
    lexeme.position.PointsAt source (lexeme.text ++ behind)
  spans : ∀ lexeme ∈ lexemes, lexeme.position.offset < lexeme.stop ∧ lexeme.stop ≤ byteLength source
  order : lexemes.Pairwise fun a b => a.stop ≤ b.position.offset
  gaps : ∀ before c behind, source = before ++ c :: behind →
    (∀ lexeme ∈ lexemes, byteLength before < lexeme.position.offset ∨
      lexeme.stop ≤ byteLength before) → isSpacing c = true

theorem Segmented.inPlace {stop : Position} {source : Text} {lexemes : List Lexeme}
    (h : Segmented stop [] .start source lexemes) : InPlace source lexemes := by
  have places : ∀ lexeme ∈ lexemes, ∃ behind,
      Leads lexeme.kind lexeme.text (lexeme.text ++ behind) ∧
        lexeme.position.PointsAt source (lexeme.text ++ behind) := by
    intro lexeme hlexeme
    obtain ⟨later, hleads, hpoints⟩ := (h.pointsAt (Position.pointsAt_start source)).2 lexeme hlexeme
    rw [List.append_nil] at hpoints
    exact ⟨later, hleads, hpoints⟩
  refine ⟨places, ?_, h.order.2, ?_⟩
  · intro lexeme hlexeme
    obtain ⟨behind, hleads, hpoints⟩ := places lexeme hlexeme
    obtain ⟨c, inside, htext, -⟩ := taken_of_isToken hleads.token
    have hpos := Char.utf8Size_pos c
    have hlength := hpoints.offset_add
    rw [htext, byteLength_append, byteLength] at hlength
    rw [Lexeme.stop, htext, byteLength]
    omega
  · intro before c behind hsource uncovered
    apply h.gaps hsource
    simpa [Position.start] using uncovered

/-! ## The whole source -/

theorem pairwise_offset {source : Text} {lexemes : List Lexeme} (h : readAll source = .ok lexemes) :
    lexemes.Pairwise fun a b => a.position.offset < b.position.offset := by
  obtain ⟨stop, hsegmented⟩ := readFrom_eq_ok_iff.mp h
  have hplaces := hsegmented.inPlace
  exact hplaces.order.imp_of_mem fun ha _ hab => Nat.lt_of_lt_of_le (hplaces.spans _ ha).1 hab

/-- A source is read exactly if it falls into spacing and lexemes, and else the fault is where the first
token is missing. -/
theorem readAll_verdict (source : Text) :
    (∀ lexemes, readAll source = .ok lexemes ↔ ∃ stop, Segmented stop [] .start source lexemes) ∧
      (∀ lexemes, readAll source = .ok lexemes → InPlace source lexemes) ∧
      (∀ fault, readAll source = .error fault ↔
        ∃ left lexemes, Segmented fault.position left .start source lexemes ∧
          Stuck left fault.cause) ∧
      ∀ fault, readAll source = .error fault → ∃ before left lexemes,
        source = before ++ left ∧ fault.position.PointsAt source left ∧
          readAll before = .ok lexemes ∧ InPlace before lexemes ∧ Stuck left fault.cause := by
  refine ⟨fun _ => readFrom_eq_ok_iff, ?_, fun _ => readFrom_eq_error_iff, ?_⟩
  · intro lexemes h
    obtain ⟨stop, hsegmented⟩ := readFrom_eq_ok_iff.mp h
    exact hsegmented.inPlace
  · intro fault h
    obtain ⟨left, lexemes, hsegmented, hstuck⟩ := readFrom_eq_error_iff.mp h
    obtain ⟨before, rfl, hbefore⟩ := hsegmented.cut
    have hpoints := (hsegmented.pointsAt (Position.pointsAt_start (before ++ left))).1
    rw [List.append_nil] at hpoints
    have hread : readAll before = .ok lexemes := readFrom_eq_ok_iff.mpr ⟨_, hbefore⟩
    exact ⟨before, left, lexemes, rfl, hpoints, hread, hbefore.inPlace, hstuck⟩

end Phrasebook.Lexeme
