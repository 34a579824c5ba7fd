import Phrasebook.Proofs.Lexeme.Blanked
import Phrasebook.Proofs.Text.LineEnding

/-!
# Lexemes and line endings

With carriage returns before its line breaks a source falls into the same lexemes on the same lines, unless
an escaped line break continues a literal: the backslash then protects the carriage return alone, and the
bare line break leaves the literal open.
-/

namespace Phrasebook.Lexeme

open Text

/-! ## What becomes of a lexeme -/

/-- A literal with escapes that goes on behind the end of its line. -/
def isContinued (lexeme : Lexeme) : Bool :=
  (lexeme.kind = .quoted .double || lexeme.kind = .quoted .single) && lexeme.text.contains '\n'

/-- What a lexeme becomes where line breaks get carriage returns. Only raw literals and block comments
may have line breaks inside. -/
structure Returned (lexeme returned : Lexeme) : Prop where
  kind : returned.kind = lexeme.kind
  line : returned.line = lexeme.line
  lastLine : returned.lastLine = lexeme.lastLine
  body : returned.body = lexeme.body.withReturns
  oneLine : lexeme.kind ≠ .quoted .backtick → lexeme.kind ≠ .blockComment →
    returned.body = lexeme.body

section

variable {kind : Kind} {text : Text} {position position' : Position}

theorem withReturns_blockComment (inside : Text) :
    withReturns ("/*" ++ inside ++ "*/") = "/*" ++ inside.withReturns ++ "*/" := by
  rw [withReturns_append, withReturns_append]
  rfl

theorem withReturns_raw (inside : Text) :
    withReturns ('`' :: (inside ++ ['`'])) = '`' :: (inside.withReturns ++ ['`']) := by
  rw [withReturns_cons (by decide), withReturns_append]
  rfl

theorem body_withReturns (h : IsToken kind text) :
    (Lexeme.mk kind text.withReturns position').body =
      (Lexeme.mk kind text position).body.withReturns := by
  cases h with
  | @lineComment inside oneLine =>
    have htext : withReturns ("//" ++ inside) = "//" ++ withReturns inside := withReturns_append ..
    rw [htext]
    exact trim_withReturns inside
  | @blockComment inside ends =>
    have hbody : ∀ inside position,
        (Lexeme.mk .blockComment ("/*" ++ inside ++ "*/") position).body = trim inside := by
      intro inside position
      simp [Lexeme.body]
    rw [withReturns_blockComment, hbody, hbody, trim_withReturns]
  | @quoted quote body escapes h =>
    have hmark : quote.mark ≠ '\n' := by cases quote <;> decide
    rw [withReturns_cons hmark, withReturns_append, withReturns_cons hmark]
    simp [Lexeme.body]
  | @raw inside ends =>
    rw [withReturns_raw]
    simp [Lexeme.body]
  | _ => rfl

/-- A token on more than one line is a raw literal, a block comment or a literal that is continued. -/
theorem newline_not_mem_of_isToken (h : IsToken kind text) (hraw : kind ≠ .quoted .backtick)
    (hblock : kind ≠ .blockComment) (hcontinued : (Lexeme.mk kind text position).isContinued = false) :
    '\n' ∉ text := by
  cases h with
  | lineComment oneLine => simpa using oneLine
  | blockComment => exact absurd rfl hblock
  | @quoted quote body escapes h =>
    cases quote with
    | double => simpa [isContinued] using hcontinued
    | single => simpa [isContinued] using hcontinued
    | backtick => exact absurd rfl escapes
  | raw => exact absurd rfl hraw
  | opening bracket => cases bracket <;> decide
  | closing bracket => cases bracket <;> decide
  | colon => decide
  | comma => decide
  | identifier start parts =>
    rintro (_ | hmem)
    · exact absurd start (by decide)
    · exact absurd (parts _ ‹_›) (by decide)
  | number start parts =>
    rintro (_ | hmem)
    · exact absurd start (by decide)
    · exact absurd (parts _ ‹_›) (by decide)
  | punctuation h =>
    intro hmem
    obtain rfl := List.mem_singleton.mp hmem
    exact absurd h (by decide)

theorem returned_withReturns (h : IsToken kind text) (hline : position'.line = position.line)
    (hcontinued : (Lexeme.mk kind text position).isContinued = false) :
    Returned ⟨kind, text, position⟩ ⟨kind, text.withReturns, position'⟩ where
  kind := rfl
  line := hline
  lastLine := by simp [lastLine, line, hline]
  body := body_withReturns h
  oneLine hraw hblock := by
    rw [withReturns_of_not_mem (newline_not_mem_of_isToken h hraw hblock hcontinued)]
    cases kind <;> rfl

/-- A line comment takes the carriage return before its line break. -/
theorem returned_lineComment (h : IsToken .lineComment text) (hline : position'.line = position.line) :
    Returned ⟨.lineComment, text, position⟩ ⟨.lineComment, text ++ ['\r'], position'⟩ := by
  cases h with
  | @lineComment inside oneLine =>
    have hbody : (Lexeme.mk .lineComment ("//" ++ inside ++ ['\r']) position').body =
        (Lexeme.mk .lineComment ("//" ++ inside) position).body := trim_concat_return inside
    refine ⟨rfl, hline, ?_, ?_, fun _ _ => hbody⟩
    · have hcount : newlines ['\r'] = 0 := rfl
      simp only [lastLine, line, hline, newlines_append, hcount]
      rfl
    · rw [hbody]
      exact (congrArg trim (withReturns_of_not_mem oneLine)).symm.trans (trim_withReturns inside)

end

/-! ## Where lexemes end -/

section

variable {kind : Kind} {text source : Text} {mark : Char} {body : Text}

/-- A carriage return behind a backslash uncovers the line break. -/
theorem escapedWidth?_withReturns (hmark : mark ≠ '\n') (hbackslash : mark ≠ '\\')
    (h : LiteralBody mark body) (hnewline : '\n' ∈ body) (behind : Text) :
    escapedWidth? mark (body.withReturns ++ behind) = none := by
  induction h with
  | nil => cases hnewline
  | @plain c rest inside backslash newline _ ih =>
    rw [withReturns_cons newline, List.cons_append, escapedWidth?.eq_def]
    simp only [if_neg inside, if_neg newline, if_neg backslash]
    rw [ih ((List.mem_cons.mp hnewline).resolve_left newline.symm), Option.map_none]
  | @escaped c rest _ ih =>
    rw [withReturns_cons (by decide), List.cons_append, escapedWidth?.eq_def]
    simp only [if_neg hbackslash.symm, if_neg (show '\\' ≠ '\n' by decide), if_pos]
    by_cases hc : c = '\n'
    · subst hc
      have hbare : escapedWidth? mark ('\n' :: (withReturns rest ++ behind)) = none := by
        rw [escapedWidth?.eq_def]
        simp [hmark.symm]
      simp only [withReturns_newline, List.cons_append, hbare, Option.map_none]
    · have hlater := ih (by simpa [Ne.symm hc] using hnewline)
      simp only [withReturns_cons hc, List.cons_append, hlater, Option.map_none]

theorem head?_withReturns (source : Text) :
    source.withReturns.head? = source.head? ∨
      ∃ c, isSpacing c = true ∧ source.withReturns.head? = some c := by
  cases source with
  | nil => exact .inl rfl
  | cons c rest =>
    by_cases hc : c = '\n'
    · subst hc
      exact .inr ⟨'\r', rfl, rfl⟩
    · rw [withReturns_cons hc]
      exact .inl rfl

/-- A word that is no line comment and no continued literal ends where it did. -/
theorem Word.EndsBefore.withReturns {position : Position} (htoken : IsToken kind text)
    (hreturns : '\r' ∉ text) (hline : kind ≠ .lineComment)
    (hcontinued : (Lexeme.mk kind text position).isContinued = false)
    (h : Word.EndsBefore ⟨kind, text⟩ source) :
    Word.EndsBefore ⟨kind, text.withReturns⟩ source.withReturns := by
  by_cases hraw : kind = .quoted .backtick
  · subst hraw
    cases htoken with
    | quoted escapes => exact absurd rfl escapes
    | @raw inside ends =>
      rw [withReturns_raw]
      exact endsBefore_raw (not_mem_withReturns (by decide) ends) source.withReturns
  by_cases hblock : kind = .blockComment
  · subst hblock
    cases htoken with
    | @blockComment inside ends =>
      have hinside : '\r' ∉ inside := fun hmem => hreturns (by simp [hmem])
      rw [withReturns_blockComment]
      refine endsBefore_blockComment (endsAt_iff_absent.mpr fun hmark => ends ?_) source.withReturns
      exact infix_of_infix_withReturns (by decide) hinside hmark
  rw [withReturns_of_not_mem (newline_not_mem_of_isToken htoken hraw hblock hcontinued)]
  exact Word.EndsBefore.of_head htoken hline h (head?_withReturns source)

/-- Behind a line comment stands a line break, or nothing. -/
theorem behind_lineComment (h : Word.EndsBefore ⟨.lineComment, text⟩ source)
    (htoken : IsToken .lineComment text) : source = [] ∨ ∃ rest, source = '\n' :: rest := by
  rw [endsBefore_iff htoken] at h
  cases source with
  | nil => exact .inl rfl
  | cons c rest =>
    have hstops := (h c rfl).1
    obtain rfl : c = '\n' := by simpa [Kind.goesOn] using hstops
    exact .inr ⟨rest, rfl⟩

end

/-! ## Reading -/

section

variable {kind : Kind} {text source : Text} {position position' : Position}

/-- A literal that is continued is left open. -/
theorem readFrom_withReturns_of_isContinued (h : IsToken kind text)
    (hcontinued : (Lexeme.mk kind text position).isContinued = true) (behind : Text) :
    readFrom position' (text.withReturns ++ behind) = .error ⟨.unterminatedString, position'⟩ := by
  simp only [isContinued, Bool.and_eq_true, Bool.or_eq_true, decide_eq_true_eq] at hcontinued
  obtain ⟨hkind, hnewline⟩ := hcontinued
  cases h with
  | @quoted quote body escapes h =>
    have hmark : quote.mark ≠ '\n' ∧ quote.mark ≠ '\\' := by cases quote <;> decide
    have hbody : '\n' ∈ body := by simpa [hmark.1.symm] using hnewline
    have hwidth := escapedWidth?_withReturns hmark.1 hmark.2 h hbody (quote.mark :: behind)
    have htext : withReturns (quote.mark :: (body ++ [quote.mark])) ++ behind =
        quote.mark :: (withReturns body ++ quote.mark :: behind) := by
      rw [withReturns_cons hmark.1, withReturns_append, withReturns_cons hmark.1]
      simp
    have hfirst : first? quote.mark (withReturns body ++ quote.mark :: behind) = none := by
      cases quote with
      | double => exact congrArg (Option.map fun width => (Kind.quoted .double, width)) hwidth
      | single => exact congrArg (Option.map fun width => (Kind.quoted .single, width)) hwidth
      | backtick => exact absurd rfl escapes
    rw [htext, Lexeme.readFrom, if_neg (by cases quote <;> decide), hfirst]
    cases quote <;> rfl
  | _ => simp at hkind

/-- Every other lexeme is read as what becomes of it, and what stands behind it as if nothing else had
changed. -/
theorem exists_readFrom_withReturns (h : IsToken kind text) (hends : Word.EndsBefore ⟨kind, text⟩ source)
    (hreturns : '\r' ∉ text) (hline : position'.line = position.line)
    (hcontinued : (Lexeme.mk kind text position).isContinued = false) :
    ∃ text', Returned ⟨kind, text, position⟩ ⟨kind, text', position'⟩ ∧
      readFrom position' (text ++ source).withReturns =
        (readFrom (position'.advance text.withReturns) source.withReturns).map
          (⟨kind, text', position'⟩ :: ·) := by
  by_cases hcomment : kind = .lineComment ∧ source ≠ []
  · obtain ⟨rfl, hsource⟩ := hcomment
    obtain ⟨rest, rfl⟩ := (behind_lineComment hends h).resolve_left hsource
    refine ⟨text ++ ['\r'], returned_lineComment h hline, ?_⟩
    cases h with
    | @lineComment inside oneLine =>
      have htext : withReturns ("//" ++ inside) = "//" ++ inside :=
        withReturns_of_not_mem (by simpa using oneLine)
      have hline : '\n' ∉ inside ++ ['\r'] := by simpa using oneLine
      have hword := readFrom_word (endsBefore_lineComment hline (withReturns rest)) position'
      rw [withReturns_append, htext, withReturns_newline, readFrom_spacing (by decide),
        ← Position.advance_append]
      simpa [Word.at] using hword
  · refine ⟨text.withReturns, returned_withReturns h hline hcontinued, ?_⟩
    have hword : Word.EndsBefore ⟨kind, text.withReturns⟩ source.withReturns := by
      by_cases hkind : kind = .lineComment
      · subst hkind
        obtain rfl : source = [] := by simpa using hcomment
        rwa [withReturns_of_not_mem
          (newline_not_mem_of_isToken h (by decide) (by decide) hcontinued)]
      · exact hends.withReturns h hreturns hkind hcontinued
    rw [withReturns_append]
    exact readFrom_word hword position'

end

/-- The fault of the first literal that is continued: it is left open on the line on which it begins. -/
structure LeftOpen (lexemes : List Lexeme) (fault : Fault) : Prop where
  cause : fault.cause = .unterminatedString
  line : ∃ lexeme, lexemes.find? isContinued = some lexeme ∧ fault.position.line = lexeme.line

theorem Segmented.withReturns {stop position position' : Position} {source : Text} {lexemes : List Lexeme}
    (h : Segmented stop [] position source lexemes) (hreturns : '\r' ∉ source)
    (hline : position'.line = position.line) :
    (∃ returned, Lexeme.readFrom position' source.withReturns = .ok returned ∧
        List.Forall₂ Returned lexemes returned ∧ ∀ lexeme ∈ lexemes, lexeme.isContinued = false) ∨
      ∃ fault, Lexeme.readFrom position' source.withReturns = .error fault ∧ LeftOpen lexemes fault := by
  induction h generalizing position' with
  | done => exact .inl ⟨[], readFrom_nil _, .nil, by simp⟩
  | @spacing position c source lexemes spaces later ih =>
    have hsource : '\r' ∉ source := fun hmem => hreturns (List.mem_cons_of_mem c hmem)
    by_cases hc : c = '\n'
    · subst hc
      rw [withReturns_newline, readFrom_spacing (by decide), readFrom_spacing (by decide)]
      exact ih hsource (by simp [Position.advance, hline, newlines])
    · rw [withReturns_cons hc, readFrom_spacing spaces]
      exact ih hsource (by simp [Position.advance, hline])
  | @lexeme position kind text source lexemes leads later ih =>
    rw [List.mem_append, not_or] at hreturns
    cases hcontinued : (Lexeme.mk kind text position).isContinued with
    | true =>
      refine .inr ⟨⟨.unterminatedString, position'⟩, ?_, rfl, _, List.find?_cons_of_pos hcontinued, hline⟩
      rw [withReturns_append]
      exact readFrom_withReturns_of_isContinued leads.token hcontinued source.withReturns
    | false =>
      obtain ⟨text', hreturned, hread⟩ := exists_readFrom_withReturns leads.token
        (leads_iff_endsBefore.mp leads) hreturns.1 hline hcontinued
      have hnext : (position'.advance text.withReturns).line = (position.advance text).line := by
        simp [Position.advance, hline]
      rcases ih hreturns.2 hnext with ⟨returned, hlater, hall, hnone⟩ | ⟨fault, hlater, hopen⟩
      · refine .inl ⟨⟨kind, text', position'⟩ :: returned, ?_, .cons hreturned hall, ?_⟩
        · rw [hread, hlater]
          rfl
        · exact List.forall_mem_cons.mpr ⟨hcontinued, hnone⟩
      · obtain ⟨hcause, lexeme, hfirst, hfound⟩ := hopen
        have hfirst' : (⟨kind, text, position⟩ :: lexemes).find? isContinued = some lexeme :=
          (List.find?_cons_of_neg (by simp [hcontinued])).trans hfirst
        refine .inr ⟨fault, ?_, hcause, lexeme, hfirst', hfound⟩
        rw [hread, hlater]
        rfl

/-- With carriage returns before its line breaks, a source has lexemes that say the same, on the same lines,
or else one of its literals is continued and left open. -/
theorem readAll_withReturns {source : Text} {lexemes : List Lexeme} (hreturns : '\r' ∉ source)
    (h : readAll source = .ok lexemes) :
    (∃ returned, readAll source.withReturns = .ok returned ∧ List.Forall₂ Returned lexemes returned ∧
        ∀ lexeme ∈ lexemes, lexeme.isContinued = false) ∨
      ∃ fault, readAll source.withReturns = .error fault ∧ LeftOpen lexemes fault := by
  obtain ⟨stop, hsegmented⟩ := readFrom_eq_ok_iff.mp h
  exact hsegmented.withReturns hreturns rfl

end Phrasebook.Lexeme
