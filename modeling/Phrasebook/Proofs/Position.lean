import Phrasebook.Position

/-!
# True positions

A position is true of a place in a source if it counts the bytes and the line breaks of all that stands
before it. Readers only ever advance positions, so what they report stays true.
-/

namespace Phrasebook.Position

open Text

/-- The position is that of the place in `source` where `rest` begins, `rest` being all that is left. -/
def PointsAt (position : Position) (source rest : Text) : Prop :=
  ∃ before, source = before ++ rest ∧ position = ⟨byteLength before, 1 + newlines before⟩

/-- The position is that of a character of the source. -/
def IsIn (position : Position) (source : Text) : Prop := ∃ c rest, position.PointsAt source (c :: rest)

section

variable {position : Position} {source text rest : Text}

theorem pointsAt_start (source : Text) : start.PointsAt source (source ++ []) :=
  ⟨[], by simp, by simp [start, newlines]⟩

theorem PointsAt.advance (h : position.PointsAt source (text ++ rest)) :
    (position.advance text).PointsAt source rest := by
  obtain ⟨before, rfl, rfl⟩ := h
  refine ⟨before ++ text, by simp, ?_⟩
  simp [Position.advance, Nat.add_assoc]

theorem PointsAt.offset_add (h : position.PointsAt source rest) :
    position.offset + byteLength rest = byteLength source := by
  obtain ⟨before, rfl, rfl⟩ := h
  simp

theorem newlinesBefore_append (before rest : Text) :
    newlinesBefore (before ++ rest) (byteLength before) = newlines before := by
  induction before with
  | nil => cases rest <;> rfl
  | cons c before ih =>
    have := c.utf8Size_pos
    rw [List.cons_append, byteLength_cons, newlinesBefore, if_neg (by omega), Nat.add_sub_cancel_left,
      ih, newlines, newlines, List.count_cons, Nat.add_comm]
    simp

theorem PointsAt.isIn (h : position.PointsAt source (text ++ rest)) (hne : text ≠ []) :
    position.IsIn source := by
  cases text with
  | nil => exact absurd rfl hne
  | cons c text => exact ⟨c, text ++ rest, h⟩

theorem IsIn.offset_lt (h : position.IsIn source) : position.offset < byteLength source := by
  obtain ⟨c, rest, hpoints⟩ := h
  have hlength := hpoints.offset_add
  have := c.utf8Size_pos
  rw [byteLength_cons] at hlength
  omega

/-- A search for the line of the offset finds the line of the position. -/
theorem IsIn.line_eq (h : position.IsIn source) : position.line = lineOf source position.offset := by
  obtain ⟨c, rest, before, rfl, rfl⟩ := h
  rw [lineOf, newlinesBefore_append]

/-- Lines do not decrease where offsets do not. -/
theorem PointsAt.line_le {position' : Position} {rest' : Text} (h : position.PointsAt source rest)
    (h' : position'.PointsAt source rest') (hle : position.offset ≤ position'.offset) :
    position.line ≤ position'.line := by
  obtain ⟨before, rfl, rfl⟩ := h
  obtain ⟨before', hsource, rfl⟩ := h'
  rcases List.append_eq_append_iff.mp hsource with ⟨middle, rfl, -⟩ | ⟨middle, rfl, -⟩
  · simp
  · cases middle with
    | nil => simp
    | cons c middle =>
      have := c.utf8Size_pos
      simp only [byteLength_append, byteLength_cons] at hle
      omega

end

end Phrasebook.Position
