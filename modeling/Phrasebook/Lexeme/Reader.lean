import Phrasebook.Fault
import Phrasebook.Lexeme.Basic
import Phrasebook.Text.Search

/-!
# Reading lexemes

A source is a sequence of lexemes with spacing between them. Each lexeme is as long as its kind
allows, and two characters are decided by the one behind them: a slash before a star always opens a
comment, and one before another slash too.
-/

namespace Phrasebook.Lexeme

/-- The characters that separate lexemes and are dropped. -/
def isSpacing (c : Char) : Bool := c ∈ [' ', '\t', '\r', '\n', '\x0c']

def isNameStart (c : Char) : Bool := c.isAlpha || c = '_' || c = '$'

def isNamePart (c : Char) : Bool := c.isAlphanum || c = '_' || c = '$'

def isNumberPart (c : Char) : Bool := c.isAlphanum || c = '_' || c = '.'

def isPunctuation (c : Char) : Bool := c ∈ ".;=+-*/%<>!&|?~^@#".toList

/-! ## Lexemes of one character -/

def Kind.ofChar? : Char → Option Kind
  | '{' => some (.opening .brace)
  | '}' => some (.closing .brace)
  | '[' => some (.opening .square)
  | ']' => some (.closing .square)
  | '(' => some (.opening .round)
  | ')' => some (.closing .round)
  | ':' => some .colon
  | ',' => some .comma
  | c => if isPunctuation c then some .punctuation else none

/-! ## Quoted literals -/

/-- How many characters a literal takes behind its opening `mark`, the closing one included. A
backslash protects the character behind it, and a bare line break leaves the literal open. -/
def escapedWidth? (mark : Char) : Text → Option Nat
  | [] => none
  | c :: rest =>
    if c = mark then some 1
    else if c = '\n' then none
    else if c = '\\' then
      match rest with
      | [] => none
      | _ :: rest => (escapedWidth? mark rest).map (· + 2)
    else (escapedWidth? mark rest).map (· + 1)

/-- How many characters a literal between backticks takes behind the first of them. -/
def rawWidth? (text : Text) : Option Nat :=
  (Text.split? "`" text).map fun (inside, _) => inside.length + 1

def quotedWidth? : Quote → Text → Option Nat
  | .double, rest => escapedWidth? '"' rest
  | .single, rest => escapedWidth? '\'' rest
  | .backtick, rest => rawWidth? rest

/-! ## One lexeme -/

/-- The kind of the lexeme that begins with `c`, and how many characters of `rest` belong to it. -/
def first? (c : Char) (rest : Text) : Option (Kind × Nat) :=
  match c, rest with
  | '/', '/' :: body => some (.lineComment, (body.takeWhile (· ≠ '\n')).length + 1)
  | '/', '*' :: body =>
    (Text.split? "*/" body).map fun (inside, _) => (.blockComment, inside.length + 3)
  | c, rest =>
    match Quote.ofChar? c with
    | some quote => (quotedWidth? quote rest).map fun width => (.quoted quote, width)
    | none =>
      if isNameStart c then some (.identifier, (rest.takeWhile isNamePart).length)
      else if c.isDigit then some (.number, (rest.takeWhile isNumberPart).length)
      else (Kind.ofChar? c).map fun kind => (kind, 0)

/-- Why no lexeme begins with `c`. -/
def refusal (c : Char) (rest : Text) : Fault.Cause :=
  if (Quote.ofChar? c).isSome then .unterminatedString
  else if c = '/' ∧ Text.begins "*" rest then .unterminatedComment
  else .unexpectedCharacter c

/-! ## A whole source -/

/-- The lexemes of a source that begins at `position`. -/
def readFrom (position : Position) : Text → Except Fault (List Lexeme)
  | [] => .ok []
  | c :: rest =>
    if isSpacing c then readFrom (position.advance [c]) rest
    else match first? c rest with
      | none => .error ⟨refusal c rest, position⟩
      | some (kind, width) => do
        let text := c :: rest.take width
        let others ← readFrom (position.advance text) (rest.drop width)
        return ⟨kind, text, position⟩ :: others
  termination_by source => source.length
  decreasing_by all_goals simp only [List.length_drop, List.length_cons]; omega

/-- The lexemes of a source, or its first lexical fault. -/
def readAll (source : Text) : Except Fault (List Lexeme) := readFrom .start source

end Phrasebook.Lexeme
