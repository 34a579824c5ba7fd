import Phrasebook.Fault
import Phrasebook.Lexeme.Basic

/-!
# Balance of brackets

Every closing bracket must close the bracket opened last, and none may stay open. The first closing
bracket that does not is to blame; if there is none, the innermost bracket left open is.
-/

namespace Phrasebook.Lexeme

/-- An open bracket and where it stands. -/
structure OpenBracket where
  bracket : Bracket
  position : Position
  deriving DecidableEq, Repr

/-- Checks the lexemes that follow where `opened` is open, the innermost bracket first. -/
def checkFrom (opened : List OpenBracket) : List Lexeme → Except Fault Unit
  | [] =>
    match opened with
    | [] => .ok ()
    | innermost :: _ => .error ⟨.unclosed [innermost.bracket.opener], innermost.position⟩
  | lexeme :: rest =>
    match lexeme.kind with
    | .opening bracket => checkFrom (⟨bracket, lexeme.position⟩ :: opened) rest
    | .closing bracket =>
      match opened with
      | [] => .error ⟨.unexpectedClose [bracket.closer], lexeme.position⟩
      | innermost :: outer =>
        if innermost.bracket = bracket then checkFrom outer rest
        else .error ⟨.mismatchedClose [innermost.bracket.closer] [bracket.closer], lexeme.position⟩
    | _ => checkFrom opened rest

/-- Fails unless the brackets nest. -/
def checkBalance (lexemes : List Lexeme) : Except Fault Unit := checkFrom [] lexemes

end Phrasebook.Lexeme
