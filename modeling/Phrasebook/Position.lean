import Phrasebook.Text.Basic

/-!
# Positions

A position is a byte offset together with its line. Readers never look a line up: they advance the
position over the text that they consume, so that it is true by construction.
-/

namespace Phrasebook

/-- A place in a source: the bytes before it, and its line, counted from one. -/
structure Position where
  offset : Nat
  line : Nat
  deriving DecidableEq, Repr

namespace Position

/-- The beginning of a source. -/
def start : Position := ⟨0, 1⟩

/-- The position behind `text`, which stands at `p`. -/
def advance (p : Position) (text : Text) : Position :=
  ⟨p.offset + Text.byteLength text, p.line + Text.newlines text⟩

@[simp] theorem advance_nil (p : Position) : p.advance [] = p := by
  simp [advance, Text.newlines]

@[simp] theorem advance_append (p : Position) (a b : Text) :
    p.advance (a ++ b) = (p.advance a).advance b := by
  simp [advance, Nat.add_assoc]

end Position

namespace Text

/-- The line breaks among the first `offset` bytes. -/
def newlinesBefore : Text → Nat → Nat
  | [], _ => 0
  | c :: rest, offset =>
    if offset = 0 then 0
    else (if c = '\n' then 1 else 0) + newlinesBefore rest (offset - c.utf8Size)

/-- The line of the byte at `offset`; every offset behind the text is on its last line. -/
def lineOf (text : Text) (offset : Nat) : Nat := 1 + newlinesBefore text offset

end Text

end Phrasebook
