import Phrasebook.Text.Invisible

/-!
# Quoted text

A text in quotes as it is shown in messages: one line on which every character can be seen.
-/

namespace Phrasebook.Text

/-- A character inside quotes. What shows nothing of its own is shown by its code point. -/
def quoteChar (c : Char) : Text :=
  match c with
  | '"' => "\\\""
  | '\\' => "\\\\"
  | '\n' => "\\n"
  | '\r' => "\\r"
  | '\t' => "\\t"
  | '\x00' => "\\0"
  | c => if isInvisible c then "\\u\x7b" ++ Nat.toDigits 16 c.toNat ++ "\x7d" else [c]

def quoted (text : Text) : Text := "\"" ++ text.flatMap quoteChar ++ "\""

end Phrasebook.Text
