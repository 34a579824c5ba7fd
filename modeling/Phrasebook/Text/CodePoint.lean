import Phrasebook.Text.Basic

/-!
# Code points in hex

Code points are written in hex digits, and those behind `U+FFFF` as two surrogates where four digits
have to do.
-/

namespace Phrasebook.CodePoint

/-! ## Digits -/

def hexDigit? (c : Char) : Option Nat :=
  if '0' ≤ c ∧ c ≤ '9' then some (c.toNat - '0'.toNat)
  else if 'a' ≤ c ∧ c ≤ 'f' then some (c.toNat - 'a'.toNat + 10)
  else if 'A' ≤ c ∧ c ≤ 'F' then some (c.toNat - 'A'.toNat + 10)
  else none

/-- The number that the hex digits of `text` write after those with the value `acc`. -/
def hexValueFrom? (acc : Nat) : Text → Option Nat
  | [] => some acc
  | c :: rest => (hexDigit? c).bind fun digit => hexValueFrom? (acc * 16 + digit) rest

/-- The number written by a text of hex digits only. -/
def hexValue? (text : Text) : Option Nat := hexValueFrom? 0 text

/-- The number in the first `count` characters, if there are as many and all are hex digits. -/
def fixedHex? (count : Nat) (text : Text) : Option Nat :=
  let digits := text.take count
  if digits.length = count then hexValue? digits else none

/-! ## Characters -/

/-- The character with the code point `n`; a surrogate names none. -/
def scalar? (n : Nat) : Option Char := if n.isValidChar then some (Char.ofNat n) else none

def isHighSurrogate (n : Nat) : Bool := 0xD800 ≤ n && n ≤ 0xDBFF

def isLowSurrogate (n : Nat) : Bool := 0xDC00 ≤ n && n ≤ 0xDFFF

/-- The code point that two surrogates write together. -/
def pairValue (high low : Nat) : Nat := 0x10000 + (high - 0xD800) * 0x400 + (low - 0xDC00)

end Phrasebook.CodePoint
