import Phrasebook.Position

/-!
# Faults

What makes a file unreadable: a token without an end, or brackets or tags that do not nest. A
reader stops at the first fault, and nothing is taken from a file that has one.
-/

namespace Phrasebook

/-- Why a source cannot be read. -/
inductive Fault.Cause where
  | unterminatedString
  | unterminatedComment
  | unterminatedTag
  | unterminatedInstruction
  | unexpectedCharacter (c : Char)
  | unexpectedClose (found : Text)
  | mismatchedClose (expected found : Text)
  | unclosed (opener : Text)
  deriving DecidableEq, Repr

/-- A cause and the place of the token that shows it. -/
structure Fault where
  cause : Fault.Cause
  position : Position
  deriving DecidableEq, Repr

namespace Fault

/-- A token that has no end or no beginning, as against tokens that do not nest. -/
def Cause.isLexical : Cause → Bool
  | unterminatedString | unterminatedComment | unterminatedTag | unterminatedInstruction
  | unexpectedCharacter _ => true
  | unexpectedClose _ | mismatchedClose _ _ | unclosed _ => false

def Cause.message : Cause → Text
  | unterminatedString => "unterminated string literal"
  | unterminatedComment => "unterminated comment"
  | unterminatedTag => "unterminated tag"
  | unterminatedInstruction => "unterminated processing instruction"
  | unexpectedCharacter c => "unexpected character '" ++ [c] ++ "'"
  | unexpectedClose found => "unexpected closing '" ++ found ++ "'"
  | mismatchedClose expected found =>
    "expected closing '" ++ expected ++ "', found '" ++ found ++ "'"
  | unclosed opener => "'" ++ opener ++ "' is never closed"

end Fault

/-- A line of a file, as it is shown to the user. -/
def Text.place (path : Text) (line : Nat) : Text := path ++ ":" ++ Text.ofNat line

namespace Fault

def message (fault : Fault) (path : Text) : Text :=
  Text.place path fault.position.line ++ ": " ++ fault.cause.message

end Fault

end Phrasebook
