import Phrasebook.Text.Basic

/-!
# Phrases

A phrase is one unit of translatable text: its value, the line it stands on, and what helps to
translate it.
-/

namespace Phrasebook

/-- What part of a source a phrase is. -/
inductive Phrase.Kind where
  | keyedString
  | textNode
  /-- One attribute of an element. -/
  | attribute (name : Text)
  /-- An element as one piece, with its markup. -/
  | wholeElement
  | serverString
  deriving DecidableEq, Repr

/-- A unit of translatable text. Only an entry of a string table has a key. -/
structure Phrase where
  key : Option Text
  value : Text
  hint : Option Text
  kind : Phrase.Kind
  line : Nat
  deriving DecidableEq, Repr

namespace Phrase

def keyed (key value : Text) (hint : Option Text) (line : Nat) : Phrase :=
  ⟨some key, value, hint, .keyedString, line⟩

def unkeyed (kind : Kind) (value : Text) (hint : Option Text) (line : Nat) : Phrase :=
  ⟨none, value, hint, kind, line⟩

end Phrase

/-- The lines of a hint put together; no line, no hint. -/
def Phrase.hintOfLines : List Text → Option Text
  | [] => none
  | lines => some (Text.join "\n" lines)

end Phrasebook
