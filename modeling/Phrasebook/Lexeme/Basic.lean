import Phrasebook.Position
import Phrasebook.Text.Blank

/-!
# Lexemes

The tokens that a string table is written in: comments, quoted literals, brackets, separators, names
and numbers. A lexeme keeps its whole text, so its parts and its last line are read off it.
-/

namespace Phrasebook

inductive Bracket where
  | brace
  | square
  | round
  deriving DecidableEq, Repr

namespace Bracket

def opener : Bracket → Char
  | brace => '{'
  | square => '['
  | round => '('

def closer : Bracket → Char
  | brace => '}'
  | square => ']'
  | round => ')'

end Bracket

/-- The three marks that enclose a literal. Behind a backtick there are no escapes. -/
inductive Quote where
  | double
  | single
  | backtick
  deriving DecidableEq, Repr

namespace Quote

def mark : Quote → Char
  | double => '"'
  | single => '\''
  | backtick => '`'

def ofChar? : Char → Option Quote
  | '"' => some .double
  | '\'' => some .single
  | '`' => some .backtick
  | _ => none

end Quote

inductive Lexeme.Kind where
  | lineComment
  | blockComment
  | quoted (quote : Quote)
  | opening (bracket : Bracket)
  | closing (bracket : Bracket)
  | colon
  | comma
  | identifier
  | number
  | punctuation
  deriving DecidableEq, Repr

/-- A token: its whole text and the place of its first character. -/
structure Lexeme where
  kind : Lexeme.Kind
  text : Text
  position : Position
  deriving DecidableEq, Repr

namespace Lexeme

def Kind.isComment : Kind → Bool
  | lineComment | blockComment => true
  | _ => false

def Kind.isQuoted : Kind → Bool
  | quoted _ => true
  | _ => false

def isComment (lexeme : Lexeme) : Bool := lexeme.kind.isComment

def line (lexeme : Lexeme) : Nat := lexeme.position.line

/-- The last line that the lexeme touches: comments and literals may span several. -/
def lastLine (lexeme : Lexeme) : Nat := lexeme.line + Text.newlines lexeme.text

/-- The byte offset behind the lexeme. -/
def stop (lexeme : Lexeme) : Nat := lexeme.position.offset + Text.byteLength lexeme.text

/-- What a lexeme says: a literal without its quotes, a comment without its marks and the blanks
inside them, and else the whole text. -/
def body (lexeme : Lexeme) : Text :=
  match lexeme.kind with
  | .quoted _ => (lexeme.text.drop 1).dropLast
  | .lineComment => Text.trim (lexeme.text.drop 2)
  | .blockComment => Text.trim ((lexeme.text.drop 2).take (lexeme.text.length - 4))
  | _ => lexeme.text

end Lexeme

end Phrasebook
