import Phrasebook.Json.Basic
import Phrasebook.Text.CodePoint
import Phrasebook.Text.Search

/-!
# Reading JSON

The grammar is that of the standard, with nothing added: no comments, no trailing commas, no control
characters in strings. A text is read as one value or refused as a whole.
-/

namespace Phrasebook.Json

def isSpace (c : Char) : Bool := [' ', '\n', '\t', '\r'].contains c

def skipSpace (text : Text) : Text := text.dropWhile isSpace

/-! ## Numbers -/

def isNumberPart (c : Char) : Bool := c.isDigit || ['-', '+', '.', 'e', 'E'].contains c

/-- At least one digit, and nothing else. -/
def isDigits (text : Text) : Bool := text ≠ [] && text.all Char.isDigit

/-- Digits without a zero too many in front. -/
def isInteger (text : Text) : Bool := isDigits text && (text.head? ≠ some '0' || text.length == 1)

def isExponent : Text → Bool
  | '+' :: digits => isDigits digits
  | '-' :: digits => isDigits digits
  | digits => isDigits digits

/-- A number without its sign: an integer, then a fraction and an exponent, which may be missing. -/
def isUnsigned (text : Text) : Bool :=
  let mantissa := text.takeWhile fun c => c ≠ 'e' && c ≠ 'E'
  let exponent := text.drop mantissa.length
  let integer := mantissa.takeWhile (· ≠ '.')
  let fraction := mantissa.drop integer.length
  isInteger integer && (fraction = [] || isDigits (fraction.drop 1)) &&
    (exponent = [] || isExponent (exponent.drop 1))

def isNumber : Text → Bool
  | '-' :: unsigned => isUnsigned unsigned
  | unsigned => isUnsigned unsigned

/-- The number that a text of digits writes. -/
def decimalValue (digits : Text) : Nat :=
  digits.foldl (fun value digit => value * 10 + (digit.toNat - '0'.toNat)) 0

def ofNumber? (literal : Text) : Option Json :=
  if isInteger literal then some (natural (decimalValue literal))
  else if isNumber literal then some (number literal)
  else none

/-! ## Strings -/

/-- The character behind the backslash of a short escape. -/
def shortEscape? : Char → Option Char
  | '"' => some '"'
  | '\\' => some '\\'
  | '/' => some '/'
  | 'b' => some '\x08'
  | 'f' => some '\x0c'
  | 'n' => some '\n'
  | 'r' => some '\r'
  | 't' => some '\t'
  | _ => none

/-- The code points in a string whose opening quote has been read, surrogates apart, and the text
behind its closing quote. -/
def readCodes? : Text → Option (List Nat × Text)
  | [] => none
  | '"' :: rest => some ([], rest)
  | '\\' :: 'u' :: rest =>
    (CodePoint.fixedHex? 4 rest).bind fun code =>
      (readCodes? (rest.drop 4)).map fun (codes, rest) => (code :: codes, rest)
  | '\\' :: c :: rest =>
    (shortEscape? c).bind fun c =>
      (readCodes? rest).map fun (codes, rest) => (c.toNat :: codes, rest)
  | c :: rest =>
    if c.toNat < 0x20 then none
    else (readCodes? rest).map fun (codes, rest) => (c.toNat :: codes, rest)
  termination_by text => text.length
  decreasing_by all_goals simp only [List.length_drop, List.length_cons]; omega

/-- The characters of a sequence of code points in which surrogates come in pairs. -/
def ofCodes? : List Nat → Option Text
  | [] => some []
  | [code] => (CodePoint.scalar? code).map ([·])
  | high :: low :: rest =>
    if CodePoint.isHighSurrogate high ∧ CodePoint.isLowSurrogate low then
      (ofCodes? rest).map (Char.ofNat (CodePoint.pairValue high low) :: ·)
    else (CodePoint.scalar? high).bind fun c => (ofCodes? (low :: rest)).map (c :: ·)

/-- A string, which may be no text, and the text behind it. -/
def readString? (text : Text) : Option (Option Text × Text) :=
  (readCodes? text).map fun (codes, rest) => (ofCodes? codes, rest)

def ofString (value : Option Text) : Json := (value.map string).getD unpaired

/-! ## Values -/

/-- The words that are values. -/
def words : List (Text × Json) := [("null", null), ("true", bool true), ("false", bool false)]

/-- A word or a number, and the text behind it. -/
def readScalar? (text : Text) : Option (Json × Text) :=
  match words.findSome? fun (word, value) => (Text.after? word text).map fun rest => (value, rest) with
  | some found => some found
  | none =>
    let literal := text.takeWhile isNumberPart
    (ofNumber? literal).map fun value => (value, text.drop literal.length)

mutual

/-- A value and the text behind it. A level of nesting takes at most three units of `fuel`. -/
def readValue? (fuel : Nat) (text : Text) : Option (Json × Text) :=
  match fuel with
  | 0 => none
  | fuel + 1 =>
    match skipSpace text with
    | '"' :: rest => (readString? rest).map fun (value, rest) => (ofString value, rest)
    | '[' :: rest =>
      match skipSpace rest with
      | ']' :: rest => some (array [], rest)
      | _ => (readItems? fuel rest).map fun (items, rest) => (array items, rest)
    | '{' :: rest =>
      match skipSpace rest with
      | '}' :: rest => some (object [], rest)
      | _ => (readMembers? fuel rest).map fun (members, rest) => (object members, rest)
    | text => readScalar? text

/-- The items of an array up to its closing bracket, at least one. -/
def readItems? (fuel : Nat) (text : Text) : Option (List Json × Text) :=
  match fuel with
  | 0 => none
  | fuel + 1 =>
    (readValue? fuel text).bind fun (item, rest) =>
      match skipSpace rest with
      | ']' :: rest => some ([item], rest)
      | ',' :: rest => (readItems? fuel rest).map fun (items, rest) => (item :: items, rest)
      | _ => none

/-- The members of an object up to its closing brace, at least one. -/
def readMembers? (fuel : Nat) (text : Text) : Option (List (Option Text × Json) × Text) :=
  match fuel with
  | 0 => none
  | fuel + 1 =>
    (readMember? fuel text).bind fun (member, rest) =>
      match skipSpace rest with
      | '}' :: rest => some ([member], rest)
      | ',' :: rest => (readMembers? fuel rest).map fun (members, rest) => (member :: members, rest)
      | _ => none

/-- A name, a colon and a value. -/
def readMember? (fuel : Nat) (text : Text) : Option ((Option Text × Json) × Text) :=
  match fuel with
  | 0 => none
  | fuel + 1 =>
    match skipSpace text with
    | '"' :: rest =>
      (readString? rest).bind fun (name, rest) =>
        match skipSpace rest with
        | ':' :: rest => (readValue? fuel rest).map fun (value, rest) => ((name, value), rest)
        | _ => none
    | _ => none

end

/-- The value that a text writes. -/
def read? (text : Text) : Option Json :=
  match readValue? (3 * text.length + 3) text with
  | some (value, rest) => if skipSpace rest = [] then some value else none
  | none => none

end Phrasebook.Json
