/-!
# Text

Text is the list of its characters: every reader of this library consumes it from the front and
every printer puts it together by appending. `String` literals are accepted wherever text is
expected.
-/

namespace Phrasebook

/-- A text, as the sequence of its characters. -/
abbrev Text := List Char

instance : Coe String Text := ⟨String.toList⟩

namespace Text

/-! ## Measures -/

/-- The length of the text in UTF-8. -/
def byteLength : Text → Nat
  | [] => 0
  | c :: rest => c.utf8Size + byteLength rest

@[simp] theorem byteLength_nil : byteLength [] = 0 := rfl

@[simp] theorem byteLength_cons (c : Char) (text : Text) :
    byteLength (c :: text) = c.utf8Size + byteLength text := rfl

@[simp] theorem byteLength_append (a b : Text) :
    byteLength (a ++ b) = byteLength a + byteLength b := by
  induction a with
  | nil => simp
  | cons c a ih => simp [ih, Nat.add_assoc]

/-- The number of line breaks in the text. -/
def newlines (text : Text) : Nat := text.count '\n'

@[simp] theorem newlines_append (a b : Text) : newlines (a ++ b) = newlines a + newlines b :=
  List.count_append

/-! ## Letter case -/

/-- The text with its ASCII letters in lower case; no other character changes. -/
def lower (text : Text) : Text := text.map Char.toLower

/-- Equality up to the case of ASCII letters. -/
def sameName (a b : Text) : Bool := lower a == lower b

/-- Whether `name` is in `names`, up to the case of ASCII letters. -/
def isListed (names : List Text) (name : Text) : Bool := names.any (sameName name)

/-! ## Putting texts together -/

/-- The texts in order, with `separator` between each two. -/
def join (separator : Text) (texts : List Text) : Text := (texts.intersperse separator).flatten

/-- A number in decimal digits. -/
def ofNat (n : Nat) : Text := Nat.toDigits 10 n

end Text

end Phrasebook
