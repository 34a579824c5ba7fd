import Phrasebook.Engine
import Phrasebook.Proofs.Guarded.Walk

/-!
# Engines never leave their guards

Whatever an engine reads, each slice ends at ends of characters, each number has an item, no difference is
below zero, and each loop ends within its bound.
-/

namespace Phrasebook.Guarded

/-- The phrases of a source, in guarded steps. -/
def phrases (rules : Rules) (source : Text) : Engine → Guarded (Except Fault (List Phrase))
  | .literalTable => plainPhrases source
  | .goTable => goPhrases source
  | .markup => pagePhrases rules source

/-- No engine meets a trap: what comes out of the guarded steps is what the library says, phrases or a
fault, for every source and all rules. -/
theorem phrases_eq_ok (rules : Rules) (source : Text) (engine : Engine) :
    phrases rules source engine = .ok (engine.phrases rules source) := by
  cases engine with
  | literalTable => exact plainPhrases_spec source
  | goTable => exact goPhrases_spec source
  | markup => exact pagePhrases_spec rules source

end Phrasebook.Guarded
