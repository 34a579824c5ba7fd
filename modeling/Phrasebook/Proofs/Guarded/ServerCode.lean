import Phrasebook.Proofs.Guarded.Table
import Phrasebook.Proofs.Moved

/-!
# Server code as a source of its own

Here a block is read as if nothing stood before it, and its places are moved afterwards: offsets by what
stands before the block, and lines by its first line less one.
-/

namespace Phrasebook

open Text

namespace Guarded

/-! ## The phrases of a block -/

/-- How many spans there are up to the last one on another line. -/
def lineStart (line : Nat) (before : List Span) : Nat :=
  (before.reverse.dropWhile fun span => span.line = line).length

/-- The phrase of a numbered span in a block that begins on the given line. -/
def serverString? (code : Text) (spans : List Span) (blockLine : Nat) :
    Span × Nat → Guarded (Option Phrase)
  | (span, number) => do
    if span.kind ≠ .quoted .double then return none
    let literal ← body code span
    let value ← decode .cFamily literal
    if allBlank value then return none
    let before ← itemsTo spans number
    let comments ← leadingComments code spans (lineStart span.line before)
    let line ← minus (blockLine + span.line) 1
    return some (.unkeyed .serverString value (Phrase.hintOfLines comments) line)

def serverStrings (position : Position) (code : Text) : Guarded (Except Fault (List Phrase)) := do
  match ← tokenize code with
  | .error fault =>
    let lines ← minus position.line 1
    return .error (fault.moved (position.offset + byteLength "<?") lines)
  | .ok spans =>
    let found ← spans.zipIdx.mapM (serverString? code spans position.line)
    return .ok (found.filterMap id)

theorem zipIdx_spans (lexemes : List Lexeme) :
    (lexemes.map Lexeme.span).zipIdx =
      (Lexeme.placed lexemes).map fun placed => (placed.lexeme.span, placed.index) := by
  have hfrom : ∀ before : List Lexeme, (lexemes.map Lexeme.span).zipIdx before.length =
      (Lexeme.placedAfter before lexemes).map fun placed => (placed.lexeme.span, placed.index) := by
    induction lexemes with
    | nil => exact fun _ => rfl
    | cons lexeme behind ih => exact fun before => congrArg _ (ih (lexeme :: before))
  exact hfrom []

section

variable {code : Text} {lexemes : List Lexeme} (hin : ∀ lexeme ∈ lexemes, InSource code lexeme)
  {placed : Lexeme.Placed} (h : StandsIn lexemes placed)

include hin h

/-- The first lexeme on the line of another one has the same comments above it. -/
theorem lineComments_spec :
    leadingComments code (lexemes.map Lexeme.span)
        (placed.before.dropWhile fun previous => previous.line = placed.lexeme.line).length =
      .ok (Lexeme.commentsAbove placed.lexeme.line
        (placed.before.dropWhile fun previous => previous.line = placed.lexeme.line)).reverse := by
  obtain ⟨lexeme, before, behind⟩ := placed
  -- Over the lexemes before it, as long as they are on its line.
  induction before generalizing lexeme behind with
  | nil => exact leadingComments_spec hin h
  | cons previous before ih =>
    rw [List.dropWhile_cons]
    split
    · rename_i hsame
      have hprevious : StandsIn lexemes ⟨previous, before, lexeme :: behind⟩ := by
        simpa [StandsIn] using h
      have hline : previous.line = lexeme.line := of_decide_eq_true hsame
      have hnext := ih previous (lexeme :: behind) hprevious
      rwa [hline] at hnext
    · exact leadingComments_spec hin h

theorem serverString?_spec {blockLine : Nat} (hblock : 1 ≤ blockLine) (offset : Nat) :
    serverString? code (lexemes.map Lexeme.span) blockLine (placed.lexeme.span, placed.index) =
      .ok (Page.serverString? (placed.moved offset (blockLine - 1))) := by
  have hbefore : itemsTo (lexemes.map Lexeme.span) placed.index =
      .ok (placed.before.reverse.map Lexeme.span) := by
    have hlength : placed.index = (placed.before.reverse.map Lexeme.span).length := by
      simp [Lexeme.Placed.index]
    rw [h, List.map_append, hlength, itemsTo_eq (by simp), List.take_left]
  have hstart : lineStart placed.lexeme.span.line (placed.before.reverse.map Lexeme.span) =
      (placed.before.dropWhile fun previous => previous.line = placed.lexeme.line).length := by
    rw [lineStart, ← List.map_reverse, List.reverse_reverse, List.dropWhile_map, List.length_map]
    rfl
  have hkind : placed.lexeme.span.kind = placed.lexeme.kind := rfl
  have hline : placed.lexeme.span.line = placed.lexeme.line := rfl
  rw [hline] at hstart
  simp only [serverString?, hkind, hline, body_spec (hin _ h.mem), decode_spec, hbefore, hstart,
    lineComments_spec hin h, minus_eq (Nat.le_add_right_of_le hblock), ok_bind, pure_eq_ok]
  rw [Page.serverString?_moved, Page.serverString?]
  by_cases hquoted : placed.lexeme.kind = .quoted .double
  · cases hblank : allBlank (Escape.decode .cFamily placed.lexeme.body) with
    | true => simp [hquoted]
    | false =>
      have hplace : blockLine + placed.lexeme.line - 1 = placed.lexeme.line + (blockLine - 1) := by omega
      simp [hquoted, hplace, Phrase.unkeyed]
  · simp [hquoted]

end

theorem serverStrings_spec {position : Position} (h : 1 ≤ position.line) (code : Text) :
    serverStrings position code = .ok (Page.serverStrings position code) := by
  have hmoved : position.advance "<?" =
      Position.moved (position.offset + byteLength "<?") (position.line - 1) .start := by
    have hbreaks : newlines "<?" = 0 := rfl
    simp only [Position.advance, Position.moved, Position.start, hbreaks, Position.mk.injEq]
    omega
  rw [serverStrings, tokenize_spec, ok_bind, Page.serverStrings, hmoved, Lexeme.readFrom_moved,
    ← Lexeme.readAll]
  generalize position.offset + byteLength "<?" = offset
  cases hread : Lexeme.readAll code with
  | error fault =>
    simp only [Except.map, minus_eq h, ok_bind]
    rfl
  | ok lexemes =>
    have hin : ∀ lexeme ∈ lexemes, InSource code lexeme := by
      intro lexeme hlexeme
      obtain ⟨htoken, hplace⟩ := Lexeme.pointsAt_of_readFrom (Position.pointsAt_start code) hread lexeme
        hlexeme
      exact ⟨htoken, hplace⟩
    have hplaced : Lexeme.placed (lexemes.map (Lexeme.moved offset (position.line - 1))) =
        (Lexeme.placed lexemes).map (Lexeme.Placed.moved offset (position.line - 1)) :=
      Lexeme.placedAfter_moved offset (position.line - 1) [] lexemes
    have hfound : (Lexeme.placed lexemes).mapM (fun placed : Lexeme.Placed =>
        serverString? code (lexemes.map Lexeme.span) position.line (placed.lexeme.span, placed.index)) =
        .ok ((Lexeme.placed lexemes).map fun placed =>
          Page.serverString? (placed.moved offset (position.line - 1))) :=
      mapM_eq fun placed hplaced => serverString?_spec hin (standsIn_of_mem_placed hplaced) h _
    show (do
      let found ← (lexemes.map Lexeme.span).zipIdx.mapM
        (serverString? code (lexemes.map Lexeme.span) position.line)
      return .ok (found.filterMap id) : Guarded (Except Fault (List Phrase))) =
      .ok (.ok ((Lexeme.placed (lexemes.map (Lexeme.moved offset (position.line - 1)))).filterMap
        Page.serverString?))
    rw [hplaced, List.filterMap_map, zipIdx_spans, List.mapM_map]
    simp only [Function.comp_def, hfound, ok_bind, List.filterMap_map, pure_eq_ok, id]

end Guarded

end Phrasebook
