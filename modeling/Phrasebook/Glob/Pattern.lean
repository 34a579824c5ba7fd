import Phrasebook.Text.Basic

/-!
# Glob patterns

`?` stands for one character, `*` for any number of them, a class in square brackets for one
character in it or, behind an exclamation mark, not in it. Two stars make up a whole component of a
path and stand for any number of components. A slash is a character like any other.
-/

namespace Phrasebook.Glob

/-- A member of a class. -/
inductive Specifier where
  | single (c : Char)
  | range (low high : Char)
  deriving DecidableEq, Repr

inductive Token where
  | char (c : Char)
  | anyChar
  | anySequence
  | anyComponents
  | within (specifiers : List Specifier)
  | outside (specifiers : List Specifier)
  deriving DecidableEq, Repr

abbrev Pattern := List Token

/-! ## Errors -/

inductive Error.Reason where
  | wildcards
  | recursiveWildcards
  | invalidRange
  deriving DecidableEq, Repr

/-- Why a text is no pattern, and the number of characters before the place that shows it. -/
structure Error where
  position : Nat
  reason : Error.Reason
  deriving DecidableEq, Repr

def Error.Reason.message : Error.Reason → Text
  | wildcards => "wildcards are either regular `*` or recursive `**`"
  | recursiveWildcards => "recursive wildcards must form a single path component"
  | invalidRange => "invalid range pattern"

def Error.message (error : Error) : Text :=
  "Pattern syntax error near position " ++ Text.ofNat error.position ++ ": " ++ error.reason.message

/-! ## Reading -/

/-- The members of a class. A hyphen between two characters makes a range of them. -/
def specifiers : Text → List Specifier
  | low :: '-' :: high :: rest => .range low high :: specifiers rest
  | c :: rest => .single c :: specifiers rest
  | [] => []

/-- The class behind an opening bracket, and how many characters it takes with its closing one. A
bracket that is its first member does not close it. -/
def class? (rest : Text) : Option (Token × Nat) :=
  let negated := rest.head? = some '!'
  let members := if negated then rest.drop 1 else rest
  let others := (members.drop 1).takeWhile (· ≠ ']')
  if members.length < others.length + 2 then none
  else
    let specifiers := specifiers (members.take (others.length + 1))
    if negated then some (.outside specifiers, others.length + 3)
    else some (.within specifiers, others.length + 2)

/-- The tokens with two stars behind them; of such tokens in a row, two are enough. -/
def addComponents (done : List Token) : List Token :=
  if 1 < done.length ∧ done.head? = some .anyComponents then done else .anyComponents :: done

/-- The pattern of the text that stands at `position` behind the character `previous`. The tokens
before it are `done`, the last one first. -/
def compileFrom (position : Nat) (previous : Option Char) (done : List Token) :
    Text → Except Error Pattern
  | [] => .ok done.reverse
  | '?' :: rest => compileFrom (position + 1) (some '?') (.anyChar :: done) rest
  | '*' :: '*' :: '*' :: _ => .error ⟨position + 2, .wildcards⟩
  | '*' :: '*' :: behind =>
    if 0 < position ∧ previous ≠ some '/' then .error ⟨position - 1, .recursiveWildcards⟩
    else if behind = [] then .ok (addComponents done).reverse
    else if behind.head? = some '/' then
      compileFrom (position + 3) (some '/') (addComponents done) (behind.drop 1)
    else .error ⟨position + 2, .recursiveWildcards⟩
  | '*' :: rest => compileFrom (position + 1) (some '*') (.anySequence :: done) rest
  | '[' :: rest =>
    match class? rest with
    | some (token, width) =>
      compileFrom (position + 1 + width) (some ']') (token :: done) (rest.drop width)
    | none => .error ⟨position, .invalidRange⟩
  | c :: rest => compileFrom (position + 1) (some c) (.char c :: done) rest
  termination_by text => text.length
  decreasing_by all_goals simp only [List.length_drop, List.length_cons]; omega

def compile (text : Text) : Except Error Pattern := compileFrom 0 none [] text

/-- Whether a text is a pattern by intention; any other is a literal path. -/
def hasWildcard (text : Text) : Bool := text.contains '*' || text.contains '?'

/-! ## Matching -/

def Specifier.covers (c : Char) : Specifier → Bool
  | .single d => c = d
  | .range low high => low ≤ c && c ≤ high

def isCovered (specifiers : List Specifier) (c : Char) : Bool :=
  specifiers.any (Specifier.covers c)

/-! A row says of a text and of each of its suffixes, the longest first, whether a pattern stands for
it. A token makes the row of the pattern that it begins from the row of the pattern behind it, so that
no suffix is looked at twice for the same token. -/

/-- The row of the empty pattern, which stands for the empty text. -/
def emptyRow : Text → List Bool
  | [] => [true]
  | _ :: rest => false :: emptyRow rest

/-- The row of a token that stands for one character, before a pattern with the row `row`. -/
def oneRow (test : Char → Bool) : Text → List Bool → List Bool
  | c :: rest, _ :: row => (test c && row.headD false) :: oneRow test rest row
  | _, _ => [false]

/-- The row of a token that stands for any characters, before a pattern with the given row. -/
def anyRow : List Bool → List Bool
  | [] => []
  | here :: row =>
    let later := anyRow row
    (here || later.headD false) :: later

/-- Where the pattern with the row `row` stands for what is behind any slash, or at the end. -/
def behindSlashRow : Text → List Bool → List Bool
  | c :: rest, _ :: row =>
    let later := behindSlashRow rest row
    (c = '/' && row.headD false || later.headD false) :: later
  | _, row => row

/-- The row of a token before a pattern with the row `row`. -/
def Token.row (text : Text) (token : Token) (row : List Bool) : List Bool :=
  match token with
  | .char d => oneRow (· = d) text row
  | .anyChar => oneRow (fun _ => true) text row
  | .within specifiers => oneRow (isCovered specifiers) text row
  | .outside specifiers => oneRow (fun c => !isCovered specifiers c) text row
  | .anySequence => anyRow row
  | .anyComponents => List.zipWith (· || ·) row (behindSlashRow text row)

def row (pattern : Pattern) (text : Text) : List Bool :=
  pattern.foldr (Token.row text) (emptyRow text)

/-- Whether the pattern stands for the whole text. -/
def isMatch (pattern : Pattern) (text : Text) : Bool := (row pattern text).headD false

end Phrasebook.Glob
