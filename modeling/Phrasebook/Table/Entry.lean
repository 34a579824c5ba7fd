import Phrasebook.Lexeme.Comment

/-!
# Table entries

An entry is a key, a colon and a value. The key opens the entry, behind an opening brace or a comma,
and the value closes it, before a comma or a closing brace. Comments do not count.
-/

namespace Phrasebook.Table

open Lexeme (Placed)

/-- The key and the value of an entry. -/
structure Entry where
  key : Placed
  value : Placed
  deriving DecidableEq, Repr

def opensEntry (kind : Lexeme.Kind) : Bool := kind = .opening .brace || kind = .comma

def closesEntry (kind : Lexeme.Kind) : Bool := kind = .closing .brace || kind = .comma

def isKey (kind : Lexeme.Kind) : Bool := kind.isQuoted || kind = .identifier

/-- The lexemes that are not comments, in their places among all. -/
def code (lexemes : List Lexeme) : List Placed :=
  (Lexeme.placed lexemes).filter fun placed => !placed.lexeme.isComment

/-- The entry between the first and the fifth lexeme, if these five make one. -/
def Entry.atFront? : List Placed → Option Entry
  | before :: key :: colon :: value :: behind :: _ =>
    if opensEntry before.lexeme.kind ∧ isKey key.lexeme.kind ∧ colon.lexeme.kind = .colon ∧
        closesEntry behind.lexeme.kind then
      some ⟨key, value⟩
    else none
  | _ => none

/-- The entries in a list without comments. -/
def entriesOfCode : List Placed → List Entry
  | [] => []
  | placed :: rest => (Entry.atFront? (placed :: rest)).toList ++ entriesOfCode rest

/-- The entries of a table, in the order of the source. -/
def entries (lexemes : List Lexeme) : List Entry := entriesOfCode (code lexemes)

/-- The comment behind the entry's value. -/
def Entry.trailingComment (entry : Entry) : Option Text := entry.value.trailingComment

/-- The comments above the entry's key. -/
def Entry.leadingComments (entry : Entry) : List Text := entry.key.leadingComments

end Phrasebook.Table
