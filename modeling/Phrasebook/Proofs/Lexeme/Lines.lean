import Phrasebook.Proofs.Lexeme.Placed
import Phrasebook.Proofs.Lexeme.Segmentation

/-!
# Lexemes and lines

Lexemes follow one another from line to line. So the lexemes that begin on one line stand side by side, and
one of them is the first on it.
-/

namespace Phrasebook.Lexeme

/-! ## Lines do not decrease -/

theorem line_le_lastLine (lexeme : Lexeme) : lexeme.line ≤ lexeme.lastLine := Nat.le_add_right _ _

/-- A lexeme begins on the last line of the one before it, or further down. -/
theorem Segmented.lines {stop position : Position} {left source : Text} {lexemes : List Lexeme}
    (h : Segmented stop left position source lexemes) :
    (∀ lexeme ∈ lexemes, position.line ≤ lexeme.line) ∧
      lexemes.Pairwise fun a b => a.lastLine ≤ b.line := by
  induction h with
  | done => simp
  | spacing spaces _ ih =>
    refine ⟨fun lexeme hlexeme => ?_, ih.2⟩
    exact Nat.le_trans (Nat.le_add_right _ _) (ih.1 lexeme hlexeme)
  | @lexeme position kind text source lexemes leads _ ih =>
    refine ⟨List.forall_mem_cons.mpr ⟨Nat.le_refl _, fun lexeme hlexeme => ?_⟩, ?_⟩
    · exact Nat.le_trans (Nat.le_add_right _ _) (ih.1 lexeme hlexeme)
    · exact List.pairwise_cons.mpr ⟨ih.1, ih.2⟩

/-! ## The first lexeme on a line -/

/-- The lexeme begins on the line, and none before it does. -/
structure Placed.IsFirstOn (line : Nat) (placed : Placed) : Prop where
  here : placed.lexeme.line = line
  first : ∀ earlier ∈ placed.before, earlier.line ≠ line

section

variable {lexemes : List Lexeme}

theorem Placed.IsFirstOn.unique {line : Nat} {head other : Placed} (hhead : head ∈ placed lexemes)
    (hother : other ∈ placed lexemes) (h : head.IsFirstOn line) (h' : other.IsFirstOn line) :
    head = other := by
  rcases placed_cases hhead hother with heq | hbefore | hbefore
  · exact heq
  · exact absurd h.here (h'.first _ hbefore)
  · exact absurd h'.here (h.first _ hbefore)

/-- Above a lexeme, those that begin on its line come to an end at the first one. -/
theorem exists_isFirstOn (hlines : lexemes.Pairwise fun a b => a.line ≤ b.line) {placed : Placed}
    (hplaced : placed ∈ Lexeme.placed lexemes) :
    ∃ head ∈ Lexeme.placed lexemes, head.IsFirstOn placed.lexeme.line ∧
      head.before = placed.before.dropWhile fun earlier => earlier.line = placed.lexeme.line := by
  obtain ⟨lexeme, before, behind⟩ := placed
  induction before generalizing lexeme behind with
  | nil => exact ⟨_, hplaced, ⟨rfl, by simp⟩, rfl⟩
  | cons previous before ih =>
    by_cases hsame : previous.line = lexeme.line
    · have hprevious : ⟨previous, before, lexeme :: behind⟩ ∈ Lexeme.placed lexemes := by
        rw [mem_placed_iff] at hplaced ⊢
        simpa using hplaced
      obtain ⟨head, hhead, hfirst, hbefore⟩ := ih previous _ hprevious
      simp only [hsame] at hfirst hbefore
      exact ⟨head, hhead, hfirst, by rw [hbefore, List.dropWhile_cons_of_pos (by simp [hsame])]⟩
    · refine ⟨_, hplaced, ⟨rfl, ?_⟩, (List.dropWhile_cons_of_neg (by simp [hsame])).symm⟩
      -- The lexeme above stands on an earlier line, and so do those above it.
      rw [mem_placed_iff.mp hplaced, List.pairwise_append, List.pairwise_reverse] at hlines
      obtain ⟨hbefore, -, hacross⟩ := hlines
      have hprevious := hacross previous (by simp) lexeme (by simp)
      intro earlier hearlier
      rcases List.mem_cons.mp hearlier with rfl | hearlier
      · exact hsame
      · have habove := List.rel_of_pairwise_cons hbefore hearlier
        change earlier.line ≠ lexeme.line
        omega

end

end Phrasebook.Lexeme
