import Phrasebook.Text.CodePoint

/-!
# Escapes in string literals

Numeric escapes that name a character are replaced by it. Every other escape stays as written, so
that a control character or a quote is still escaped in the value. Decoding never fails: a
malformed escape names no character and is copied.
-/

namespace Phrasebook

/-- The dialects differ in one escape: eight hex digits behind `\U`. -/
inductive Dialect where
  | cFamily
  | go
  deriving DecidableEq, Repr

/-- The character that an escape names, and how many characters it takes behind the backslash. -/
structure Escape where
  char : Char
  width : Nat
  deriving DecidableEq, Repr

namespace Escape

open CodePoint

def octalDigit? (c : Char) : Option Nat :=
  if '0' ≤ c ∧ c ≤ '7' then some (c.toNat - '0'.toNat) else none

/-! ## The forms of a numeric escape, behind the backslash -/

/-- Octal digits are taken while the value fits into a byte, at most `count` of them. -/
def octalFrom (count value width : Nat) : Text → Escape
  | c :: rest =>
    match count, octalDigit? c with
    | count + 1, some digit =>
      if value * 8 + digit ≤ 0xFF then octalFrom count (value * 8 + digit) (width + 1) rest
      else ⟨Char.ofNat value, width⟩
    | _, _ => ⟨Char.ofNat value, width⟩
  | [] => ⟨Char.ofNat value, width⟩

/-- `NNN`: one to three octal digits. -/
def octal (text : Text) : Escape := octalFrom 3 0 0 text

/-- `count` hex digits behind the letter that announces them. -/
def fixed? (count : Nat) (digits : Text) : Option Escape :=
  ((fixedHex? count digits).bind scalar?).map (⟨·, count + 1⟩)

/-- One to six hex digits and a closing brace, behind `u` and an opening one. -/
def braced? (text : Text) : Option Escape :=
  let digits := text.takeWhile (· ≠ '}')
  if digits.length < text.length ∧ 1 ≤ digits.length ∧ digits.length ≤ 6 then
    ((hexValue? digits).bind scalar?).map (⟨·, digits.length + 3⟩)
  else none

/-- The low surrogate in `\uNNNN`, which must follow a high one. -/
def low? : Text → Option Nat
  | '\\' :: 'u' :: digits => (fixedHex? 4 digits).filter isLowSurrogate
  | _ => none

/-- Four hex digits behind `u`; two such escapes where they write a surrogate pair. -/
def utf16? (digits : Text) : Option Escape :=
  (fixedHex? 4 digits).bind fun value =>
    match scalar? value with
    | some c => some ⟨c, 5⟩
    | none =>
      if isHighSurrogate value then
        ((low? (digits.drop 4)).bind fun low => scalar? (pairValue value low)).map (⟨·, 11⟩)
      else none

/-- The numeric escape at the beginning of what follows a backslash. -/
def read? (dialect : Dialect) : Text → Option Escape
  | 'x' :: digits => fixed? 2 digits
  | 'u' :: '{' :: rest => braced? rest
  | 'u' :: digits => utf16? digits
  | 'U' :: digits => if dialect = .go then fixed? 8 digits else none
  | c :: rest => if (octalDigit? c).isSome then some (octal (c :: rest)) else none
  | [] => none

/-- The body of a literal with its numeric escapes decoded. An escape that names no character is
copied together with the one character behind its backslash. -/
def decode (dialect : Dialect) : Text → Text
  | [] => []
  | c :: rest =>
    if c = '\\' then
      match read? dialect rest with
      | some escape => escape.char :: decode dialect (rest.drop escape.width)
      | none => '\\' :: rest.take 1 ++ decode dialect (rest.drop 1)
    else c :: decode dialect rest
  termination_by body => body.length
  decreasing_by all_goals simp only [List.length_drop, List.length_cons]; omega

end Escape

end Phrasebook
