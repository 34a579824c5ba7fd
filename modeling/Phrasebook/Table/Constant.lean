import Phrasebook.Lexeme.Basic

/-!
# String constants

A declaration is the word `const` and one specification, or a group of them in round brackets. A
specification is a name, at most one type name, an equals sign and a literal in double quotes or
backticks; what has another shape declares nothing.
-/

namespace Phrasebook.Table

/-- A name bound to the body of a literal. -/
structure Constant where
  name : Text
  value : Text
  deriving DecidableEq, Repr

namespace Constant

/-- The literal behind an equals sign. -/
def initialiser? : List Lexeme → Option Text
  | assign :: literal :: _ =>
    if assign.kind = .punctuation ∧ assign.text = "=" ∧
        (literal.kind = .quoted .double ∨ literal.kind = .quoted .backtick) then
      some literal.body
    else none
  | _ => none

/-- The specification that begins with `name`, and how many of the following lexemes it takes. -/
def spec? (name : Lexeme) (following : List Lexeme) : Option (Constant × Nat) :=
  if name.kind = .identifier then
    match following with
    | [] => none
    | next :: others =>
      if next.kind = .identifier then (initialiser? others).map fun value => (⟨name.text, value⟩, 3)
      else (initialiser? following).map fun value => (⟨name.text, value⟩, 2)
  else none

/-- Where a reader of declarations stands. -/
inductive Place where
  | outside
  /-- Directly behind the word `const`. -/
  | declaration
  | group
  deriving DecidableEq, Repr

/-- The place behind a lexeme that belongs to no specification and no group. -/
def Place.behind (lexeme : Lexeme) : Place :=
  if lexeme.kind = .identifier ∧ lexeme.text = "const" then .declaration else .outside

/-- The constants declared in a list without comments. -/
def declared (place : Place) : List Lexeme → List Constant
  | [] => []
  | lexeme :: rest =>
    match place with
    | .outside => declared (.behind lexeme) rest
    | .declaration =>
      if lexeme.kind = .opening .round then declared .group rest
      else match spec? lexeme rest with
        | some (constant, width) => constant :: declared .outside (rest.drop width)
        | none => declared (.behind lexeme) rest
    | .group =>
      if lexeme.kind = .closing .round then declared .outside rest
      else match spec? lexeme rest with
        | some (constant, width) => constant :: declared .group (rest.drop width)
        | none => declared .group rest
  termination_by code => code.length
  decreasing_by all_goals simp only [List.length_drop, List.length_cons]; omega

/-- The constants that a source declares, in its order. -/
def all (lexemes : List Lexeme) : List Constant :=
  declared .outside (lexemes.filter fun lexeme => !lexeme.isComment)

/-- The value of a name: its last declaration counts. -/
def value? (constants : List Constant) (name : Text) : Option Text :=
  (constants.reverse.find? fun constant => constant.name = name).map Constant.value

end Constant

end Phrasebook.Table
