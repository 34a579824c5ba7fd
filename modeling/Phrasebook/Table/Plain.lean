import Phrasebook.Escape
import Phrasebook.Lexeme.Balance
import Phrasebook.Lexeme.Reader
import Phrasebook.Phrase
import Phrasebook.Table.Entry

/-!
# Plain string tables

Only entries with a double-quoted key and a double-quoted value are phrases. Literals in single
quotes are for the program and not for its users.
-/

namespace Phrasebook.Table

/-- The lexemes of a table whose brackets nest. -/
def read (source : Text) : Except Fault (List Lexeme) := do
  let lexemes ← Lexeme.readAll source
  Lexeme.checkBalance lexemes
  return lexemes

namespace Plain

/-- The phrase of an entry, its hint being the comment behind the value. -/
def phrase? (entry : Entry) : Option Phrase :=
  let key := entry.key.lexeme
  let value := entry.value.lexeme
  if key.kind = .quoted .double ∧ value.kind = .quoted .double then
    some (.keyed key.body (Escape.decode .cFamily value.body) entry.trailingComment key.line)
  else none

/-- The phrases of a plain table, in the order of the source. -/
def phrases (source : Text) : Except Fault (List Phrase) := do
  let lexemes ← read source
  return (entries lexemes).filterMap phrase?

end Plain

end Phrasebook.Table
