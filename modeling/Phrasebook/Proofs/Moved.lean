import Phrasebook.Page.ServerCode

/-!
# Moved places

A text that stands behind another one is read as it is on its own, with its places moved: offsets by the
bytes before it, and lines by the line breaks before it.
-/

namespace Phrasebook

open Text

/-- The position behind so many more bytes and so many more lines. -/
def Position.moved (offset lines : Nat) (position : Position) : Position :=
  ⟨position.offset + offset, position.line + lines⟩

def Lexeme.moved (offset lines : Nat) (lexeme : Lexeme) : Lexeme :=
  ⟨lexeme.kind, lexeme.text, lexeme.position.moved offset lines⟩

def Lexeme.Placed.moved (offset lines : Nat) (placed : Placed) : Placed :=
  ⟨placed.lexeme.moved offset lines, placed.before.map (Lexeme.moved offset lines),
    placed.behind.map (Lexeme.moved offset lines)⟩

def Fault.moved (offset lines : Nat) (fault : Fault) : Fault :=
  ⟨fault.cause, fault.position.moved offset lines⟩

section

variable (offset lines : Nat)

theorem Position.moved_advance (position : Position) (text : Text) :
    (position.moved offset lines).advance text = (position.advance text).moved offset lines := by
  simp only [moved, advance, Position.mk.injEq]
  omega

theorem Lexeme.readFrom_moved (position : Position) (text : Text) :
    readFrom (position.moved offset lines) text =
      ((readFrom position text).map (List.map (Lexeme.moved offset lines))).mapError
        (Fault.moved offset lines) := by
  fun_induction readFrom position text with
  | case1 position =>
    rw [readFrom]
    rfl
  | case2 position c rest hspacing ih =>
    rw [readFrom, if_pos hspacing, Position.moved_advance, ih]
  | case3 position c rest hspacing hfirst =>
    rw [readFrom, if_neg hspacing, hfirst]
    rfl
  | case4 position c rest hspacing kind width hfirst text ih =>
    rw [readFrom, if_neg hspacing, hfirst]
    simp only [Position.moved_advance]
    rw [ih]
    cases readFrom (position.advance (c :: rest.take width)) (rest.drop width) <;> rfl

theorem Lexeme.placedAfter_moved (before lexemes : List Lexeme) :
    placedAfter (before.map (Lexeme.moved offset lines)) (lexemes.map (Lexeme.moved offset lines)) =
      (placedAfter before lexemes).map (Placed.moved offset lines) := by
  induction lexemes generalizing before with
  | nil => rfl
  | cons lexeme behind ih => exact congrArg _ (ih (lexeme :: before))

@[simp] theorem Lexeme.line_moved (lexeme : Lexeme) :
    (lexeme.moved offset lines).line = lexeme.line + lines := rfl

@[simp] theorem Lexeme.lastLine_moved (lexeme : Lexeme) :
    (lexeme.moved offset lines).lastLine = lexeme.lastLine + lines := Nat.add_right_comm _ _ _

@[simp] theorem Lexeme.isComment_moved (lexeme : Lexeme) :
    (lexeme.moved offset lines).isComment = lexeme.isComment := rfl

@[simp] theorem Lexeme.body_moved (lexeme : Lexeme) :
    (lexeme.moved offset lines).body = lexeme.body := rfl

theorem Lexeme.sharesLineWithCode_moved (comment : Lexeme) (before : List Lexeme) :
    sharesLineWithCode (comment.moved offset lines) (before.map (Lexeme.moved offset lines)) =
      sharesLineWithCode comment before := by
  cases before with
  | nil => rfl
  | cons previous before =>
    have hsame : (previous.lastLine + lines == comment.line + lines) = (previous.lastLine == comment.line) :=
      Bool.eq_iff_iff.mpr (by simp)
    simp [sharesLineWithCode, hsame]

theorem Lexeme.commentsAbove_moved (line : Nat) (before : List Lexeme) :
    commentsAbove (line + lines) (before.map (Lexeme.moved offset lines)) = commentsAbove line before := by
  induction before generalizing line with
  | nil => rfl
  | cons candidate before ih =>
    have hline : candidate.lastLine + lines + 1 = line + lines ↔ candidate.lastLine + 1 = line := by omega
    simp only [List.map_cons, commentsAbove, sharesLineWithCode_moved, lastLine_moved, isComment_moved,
      body_moved, line_moved, hline, ih]

/-- Of a moved block only the lines of the phrases are others. -/
theorem Page.serverString?_moved (placed : Lexeme.Placed) :
    serverString? (placed.moved offset lines) = (serverString? placed).map fun phrase =>
      { phrase with line := phrase.line + lines } := by
  have habove : (placed.moved offset lines).before.dropWhile
      (fun previous => previous.line = (placed.moved offset lines).lexeme.line) =
      (placed.before.dropWhile fun previous => previous.line = placed.lexeme.line).map
        (Lexeme.moved offset lines) := by
    rw [Lexeme.Placed.moved, List.dropWhile_map]
    congr 2
    funext previous
    exact decide_eq_decide.mpr (by simp)
  have hline : (placed.moved offset lines).lexeme.line = placed.lexeme.line + lines := rfl
  have hkind : (placed.moved offset lines).lexeme.kind = placed.lexeme.kind := rfl
  have hbody : (placed.moved offset lines).lexeme.body = placed.lexeme.body := rfl
  simp only [serverString?, habove]
  simp only [hline, hkind, hbody, Lexeme.commentsAbove_moved]
  split <;> rfl

end

end Phrasebook
