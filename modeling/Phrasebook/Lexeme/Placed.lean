import Phrasebook.Lexeme.Basic

/-!
# Lexemes in their places

A lexeme together with the lexemes on its two sides, so that what stands around it is read off it.
-/

namespace Phrasebook.Lexeme

structure Placed where
  lexeme : Lexeme
  /-- The lexemes before it, the nearest first. -/
  before : List Lexeme
  /-- The lexemes behind it, the nearest first. -/
  behind : List Lexeme
  deriving DecidableEq, Repr

/-- The number of lexemes before this one. -/
def Placed.index (placed : Placed) : Nat := placed.before.length

/-- The lexemes that follow those of `before`, each in its place. -/
def placedAfter (before : List Lexeme) : List Lexeme → List Placed
  | [] => []
  | lexeme :: behind => ⟨lexeme, before, behind⟩ :: placedAfter (lexeme :: before) behind

/-- The lexemes of a list, each in its place. -/
def placed (lexemes : List Lexeme) : List Placed := placedAfter [] lexemes

end Phrasebook.Lexeme
