import Phrasebook.Glob.Pattern

/-!
# What is left of a pattern

A pattern is read along a text from its front. Behind the first characters some remainders of it are
left, and the whole text is matched exactly if one of them takes the rest. So two fronts that leave the
same remainders are the same to the pattern, whatever follows.
-/

namespace Phrasebook.Glob

/-- What is left of a pattern: a pattern for all that follows, or one for what follows behind any slash
or at the end. -/
inductive Residual where
  | whole (pattern : Pattern)
  | behindSlash (pattern : Pattern)
  deriving DecidableEq, Repr

/-- Whether the text is one that the remainder stands for. -/
def Residual.takes (text : Text) : Residual → Bool
  | .whole pattern => isMatch pattern text
  | .behindSlash pattern => (behindSlashRow text (row pattern text)).headD false

/-- What is left of two stars before a pattern, when a component has begun with `c` or ended there. -/
def skip (c : Char) (pattern : Pattern) : Residual :=
  if c = '/' then .whole (.anyComponents :: pattern) else .behindSlash pattern

/-- What is left of a pattern behind one character. -/
def derive (c : Char) : Pattern → List Residual
  | [] => []
  | .char d :: pattern => if c = d then [.whole pattern] else []
  | .anyChar :: pattern => [.whole pattern]
  | .within specifiers :: pattern => if isCovered specifiers c then [.whole pattern] else []
  | .outside specifiers :: pattern => if isCovered specifiers c then [] else [.whole pattern]
  | .anySequence :: pattern => .whole (.anySequence :: pattern) :: derive c pattern
  | .anyComponents :: pattern => skip c pattern :: derive c pattern

def Residual.derive (c : Char) : Residual → List Residual
  | .whole pattern => Glob.derive c pattern
  | .behindSlash pattern => [skip c pattern]

/-- What is left of a pattern behind a text. -/
def residuals (pattern : Pattern) (front : Text) : List Residual :=
  front.foldl (fun left c => left.flatMap (Residual.derive c)) [.whole pattern]

/-- A pattern cannot tell two fronts apart. -/
def LeavesSame (pattern : Pattern) (front front' : Text) : Prop :=
  (∀ residual ∈ residuals pattern front, residual ∈ residuals pattern front') ∧
    ∀ residual ∈ residuals pattern front', residual ∈ residuals pattern front

instance (pattern : Pattern) (front front' : Text) : Decidable (LeavesSame pattern front front') :=
  inferInstanceAs (Decidable (_ ∧ _))

section

variable {pattern : Pattern} {front front' rest : Text} {c : Char} {test : Char → Bool}

/-! ## Rows -/

theorem row_cons_of_eq {here : Bool} {later : List Bool} (h : row pattern rest = here :: later) :
    row pattern rest = isMatch pattern rest :: later := by
  rw [isMatch, h]
  rfl

/-- The row of a text begins with the answer for the text and goes on as the row of what is behind its
first character. -/
theorem row_cons (pattern : Pattern) (c : Char) (rest : Text) :
    row pattern (c :: rest) = isMatch pattern (c :: rest) :: row pattern rest := by
  suffices h : ∃ here, row pattern (c :: rest) = here :: row pattern rest by
    obtain ⟨here, heq⟩ := h
    exact row_cons_of_eq heq
  induction pattern with
  | nil => exact ⟨false, rfl⟩
  | cons token pattern ih =>
    obtain ⟨here, heq⟩ := ih
    show ∃ first, token.row (c :: rest) (row pattern (c :: rest)) = first :: token.row rest (row pattern rest)
    rw [heq]
    cases token <;> exact ⟨_, rfl⟩

theorem row_nil (pattern : Pattern) : row pattern [] = [isMatch pattern []] := by
  suffices h : ∃ here, row pattern [] = [here] by
    obtain ⟨here, heq⟩ := h
    exact row_cons_of_eq heq
  induction pattern with
  | nil => exact ⟨true, rfl⟩
  | cons token pattern ih =>
    obtain ⟨here, heq⟩ := ih
    show ∃ first, token.row [] (row pattern []) = [first]
    rw [heq]
    cases token <;> exact ⟨_, rfl⟩

/-- A token that stands for one character tests the first one. -/
theorem isMatch_cons_of_oneRow {token : Token}
    (htoken : ∀ text row, token.row text row = oneRow test text row) (pattern : Pattern) (c : Char)
    (rest : Text) : isMatch (token :: pattern) (c :: rest) = (test c && isMatch pattern rest) := by
  show (token.row (c :: rest) (row pattern (c :: rest))).headD false = _
  rw [htoken, row_cons]
  rfl

theorem isMatch_anySequence_cons (pattern : Pattern) (c : Char) (rest : Text) :
    isMatch (.anySequence :: pattern) (c :: rest) =
      (isMatch pattern (c :: rest) || isMatch (.anySequence :: pattern) rest) := by
  show (anyRow (row pattern (c :: rest))).headD false = _
  rw [row_cons]
  rfl

theorem takes_behindSlash_cons (pattern : Pattern) (c : Char) (rest : Text) :
    (Residual.behindSlash pattern).takes (c :: rest) =
      ((c = '/' && isMatch pattern rest) || (Residual.behindSlash pattern).takes rest) := by
  rw [Residual.takes, row_cons]
  rfl

theorem isMatch_anyComponents (pattern : Pattern) (text : Text) :
    isMatch (.anyComponents :: pattern) text =
      (isMatch pattern text || (Residual.behindSlash pattern).takes text) := by
  show (List.zipWith (· || ·) (row pattern text) (behindSlashRow text (row pattern text))).headD false = _
  rw [Residual.takes]
  cases text with
  | nil =>
    rw [row_nil]
    rfl
  | cons c rest =>
    rw [row_cons]
    rfl

/-! ## One character -/

theorem takes_skip (pattern : Pattern) (c : Char) (rest : Text) :
    (skip c pattern).takes rest = (Residual.behindSlash pattern).takes (c :: rest) := by
  rw [takes_behindSlash_cons, skip]
  split
  · rename_i hslash
    rw [hslash, Residual.takes, isMatch_anyComponents]
    simp
  · rename_i hslash
    simp [hslash]

theorem any_derive (pattern : Pattern) (c : Char) (rest : Text) :
    (derive c pattern).any (Residual.takes rest) = isMatch pattern (c :: rest) := by
  induction pattern with
  | nil => rfl
  | cons token pattern ih =>
    cases token with
    | char d =>
      rw [derive, isMatch_cons_of_oneRow fun _ _ => rfl]
      split <;> simp [*, Residual.takes]
    | anyChar =>
      rw [derive, isMatch_cons_of_oneRow fun _ _ => rfl]
      simp [Residual.takes]
    | within specifiers =>
      rw [derive, isMatch_cons_of_oneRow fun _ _ => rfl]
      split <;> simp [*, Residual.takes]
    | outside specifiers =>
      rw [derive, isMatch_cons_of_oneRow fun _ _ => rfl]
      split <;> simp [*, Residual.takes]
    | anySequence =>
      rw [derive, List.any_cons, ih, isMatch_anySequence_cons, Bool.or_comm]
      rfl
    | anyComponents =>
      rw [derive, List.any_cons, ih, isMatch_anyComponents, takes_skip, Bool.or_comm]

theorem Residual.any_derive (residual : Residual) (c : Char) (rest : Text) :
    (residual.derive c).any (takes rest) = residual.takes (c :: rest) := by
  cases residual with
  | whole pattern => exact Glob.any_derive pattern c rest
  | behindSlash pattern => simp [Residual.derive, takes_skip]

/-! ## A front -/

theorem any_foldl_derive (left : List Residual) (front rest : Text) :
    (front.foldl (fun left c => left.flatMap (Residual.derive c)) left).any (Residual.takes rest) =
      left.any (Residual.takes (front ++ rest)) := by
  induction front generalizing left with
  | nil => rfl
  | cons c front ih =>
    rw [List.foldl_cons, ih, List.any_flatMap, List.cons_append]
    simp only [Residual.any_derive]

/-- A text is matched exactly if one of the remainders behind its front takes the rest. -/
theorem isMatch_append (pattern : Pattern) (front rest : Text) :
    isMatch pattern (front ++ rest) = (residuals pattern front).any (Residual.takes rest) := by
  rw [residuals, any_foldl_derive]
  simp [Residual.takes]

theorem LeavesSame.isMatch_eq (h : LeavesSame pattern front front') (rest : Text) :
    isMatch pattern (front ++ rest) = isMatch pattern (front' ++ rest) := by
  rw [isMatch_append, isMatch_append, Bool.eq_iff_iff, List.any_eq_true, List.any_eq_true]
  exact ⟨fun ⟨residual, hin, htakes⟩ => ⟨residual, h.1 residual hin, htakes⟩,
    fun ⟨residual, hin, htakes⟩ => ⟨residual, h.2 residual hin, htakes⟩⟩

theorem LeavesSame.symm (h : LeavesSame pattern front front') : LeavesSame pattern front' front :=
  ⟨h.2, h.1⟩

end

end Phrasebook.Glob
