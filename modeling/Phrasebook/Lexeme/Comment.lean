import Phrasebook.Lexeme.Placed

/-!
# The comments of an entry

A comment belongs to an entry by its lines alone. A trailing comment begins on the last line of the
value. Leading comments stand directly above the key, each on lines of its own, without a blank line
between them.
-/

namespace Phrasebook.Lexeme

/-- A comment that starts on the line where code ends, the lexeme before it being the first of
`before`. -/
def sharesLineWithCode (comment : Lexeme) (before : List Lexeme) : Bool :=
  before.head?.any fun previous => !previous.isComment && previous.lastLine == comment.line

/-- The comments that lead to `line`, the nearest first; `before` are the lexemes above it, the
nearest first. -/
def commentsAbove (line : Nat) : List Lexeme → List Text
  | [] => []
  | candidate :: before =>
    if candidate.isComment ∧ candidate.lastLine + 1 = line ∧
        ¬ sharesLineWithCode candidate before then
      candidate.body :: commentsAbove candidate.line before
    else []

/-- The comment behind a value and the comma that may follow it, if it begins on the value's last
line. -/
def Placed.trailingComment (value : Placed) : Option Text :=
  let candidates : List Lexeme := match value.behind with
    | [] => []
    | next :: others => if next.kind = .comma then others else value.behind
  (candidates.head?.filter fun c => c.isComment && c.line == value.lexeme.lastLine).map body

/-- The comments directly above a key, in the order of the source. -/
def Placed.leadingComments (key : Placed) : List Text :=
  (commentsAbove key.lexeme.line key.before).reverse

end Phrasebook.Lexeme
