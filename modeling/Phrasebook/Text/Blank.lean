import Phrasebook.Text.Basic

/-!
# Blank characters

The characters that count as space when text is trimmed or collapsed: Unicode's `White_Space`
property. `collapse` writes a text as its words with one space between them, and is what makes two
layouts of the same sentence equal.
-/

namespace Phrasebook.Text

/-- The code points with the property `White_Space`, as ranges with both ends included. -/
def blankRanges : List (Nat × Nat) :=
  [(0x09, 0x0D), (0x20, 0x20), (0x85, 0x85), (0xA0, 0xA0), (0x1680, 0x1680), (0x2000, 0x200A),
   (0x2028, 0x2029), (0x202F, 0x202F), (0x205F, 0x205F), (0x3000, 0x3000)]

def isBlank (c : Char) : Bool :=
  blankRanges.any fun (low, high) => low ≤ c.toNat && c.toNat ≤ high

/-- Nothing but blank characters; the empty text too. -/
def allBlank (text : Text) : Bool := text.all isBlank

/-! ## Trimming -/

def trimStart (text : Text) : Text := text.dropWhile isBlank

def trimEnd (text : Text) : Text := (text.reverse.dropWhile isBlank).reverse

/-- The text without the blank characters at its two ends. -/
def trim (text : Text) : Text := trimEnd (trimStart text)

/-! ## Words -/

/-- The maximal runs of characters that are not blank. -/
def words : Text → List Text
  | [] => []
  | c :: rest =>
    if isBlank c then words rest
    else match rest, words rest with
      | d :: _, word :: others => if isBlank d then [c] :: word :: others else (c :: word) :: others
      | _, others => [c] :: others

/-- The words of the text with one space between each two. -/
def collapse (text : Text) : Text := join [' '] (words text)

end Phrasebook.Text
