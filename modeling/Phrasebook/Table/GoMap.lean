import Phrasebook.Table.Constant
import Phrasebook.Table.Plain

/-!
# String tables of Go

Here a key may be the name of a constant of the same file, a value may be a raw string between
backticks, and the comments above an entry count as hints too.
-/

namespace Phrasebook.Table.GoMap

/-- The key of an entry; names are looked up among the constants. -/
def key? (constants : List Constant) (key : Lexeme) : Option Text :=
  match key.kind with
  | .quoted .double | .quoted .backtick => some key.body
  | .identifier => Constant.value? constants key.text
  | _ => none

/-- The value of an entry. Carriage returns are no part of a raw string. -/
def value? (value : Lexeme) : Option Text :=
  match value.kind with
  | .quoted .double => some (Escape.decode .go value.body)
  | .quoted .backtick => some (value.body.filter (· ≠ '\r'))
  | _ => none

/-- The phrase of an entry, its hint being the comments above the key and behind the value. -/
def phrase? (constants : List Constant) (entry : Entry) : Option Phrase := do
  let key ← key? constants entry.key.lexeme
  let value ← value? entry.value.lexeme
  let comments := entry.leadingComments ++ entry.trailingComment.toList
  return .keyed key value (Phrase.hintOfLines comments) entry.key.lexeme.line

/-- The phrases of the tables in a source, in its order. -/
def phrases (source : Text) : Except Fault (List Phrase) := do
  let lexemes ← read source
  return (entries lexemes).filterMap (phrase? (Constant.all lexemes))

end Phrasebook.Table.GoMap
