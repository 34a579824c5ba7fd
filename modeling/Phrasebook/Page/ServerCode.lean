import Phrasebook.Escape
import Phrasebook.Lexeme.Comment
import Phrasebook.Lexeme.Reader
import Phrasebook.Phrase

/-!
# Server code in a page

A block of server code is read as lexemes, and its double-quoted literals are phrases. A text that is
nothing but such blocks has nothing to translate.
-/

namespace Phrasebook.Page

/-- Whether a text is blank but for server blocks; `seen` tells of a block before it. -/
def isServerCodeAfter (seen : Bool) : Text → Bool
  | [] => seen
  | '<' :: '?' :: body =>
    match _h : Text.split? "?>" body with
    | some (_, rest) => isServerCodeAfter true rest
    | none => false
  | c :: rest => Text.isBlank c && isServerCodeAfter seen rest
  termination_by text => text.length
  decreasing_by
    · have := congrArg List.length (Text.append_of_split? _h)
      simp at this ⊢; omega
    · simp

/-- Whether a text consists of server blocks, at least one, and of blanks between them. -/
def isOnlyServerCode (text : Text) : Bool := isServerCodeAfter false text

/-! ## Literals -/

/-- The phrase of a double-quoted literal that is not blank. Its hint are the comments above the line
that it begins on. -/
def serverString? (placed : Lexeme.Placed) : Option Phrase :=
  let lexeme := placed.lexeme
  let value := Escape.decode .cFamily lexeme.body
  if lexeme.kind = .quoted .double ∧ ¬ Text.allBlank value then
    let above := placed.before.dropWhile fun previous => previous.line = lexeme.line
    let comments := (Lexeme.commentsAbove lexeme.line above).reverse
    some (.unkeyed .serverString value (Phrase.hintOfLines comments) lexeme.line)
  else none

/-- The phrases of the block at `position` with the inside `code`. Places count from the beginning of
the page. -/
def serverStrings (position : Position) (code : Text) : Except Fault (List Phrase) := do
  let lexemes ← Lexeme.readFrom (position.advance "<?") code
  return (Lexeme.placed lexemes).filterMap serverString?

end Phrasebook.Page
