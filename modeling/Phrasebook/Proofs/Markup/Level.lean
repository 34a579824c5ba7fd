import Phrasebook.Proofs.Markup.Numbering

/-!
# Levels of an outline

Going down from a node by its children and going up to it by parents, one meets the same nodes at the same
distances. The nodes around a node are a row, each around the next one.
-/

namespace Phrasebook.Markup

namespace Outline

/-- From the node `above` one comes to the node `below` by going down so many levels. -/
inductive Descends (rows : List Row) : Nat → Nat → Nat → Prop where
  | here (number : Nat) : Descends rows number 0 number
  | down {above child below depth : Nat} {row : Row} (found : rows[above]? = some row)
    (first : child ∈ row.children) (later : Descends rows child depth below) :
    Descends rows above (depth + 1) below

/-- The node `outer` lies around the node `number`, however far away. -/
def IsAround (rows : List Row) (outer number : Nat) : Prop :=
  ∃ depth, Descends rows outer (depth + 1) number

/-- The subtrees of the roots, and of the children of each node, lie one behind the other. -/
structure Tiled (roots : List Nat) (rows : List Row) : Prop where
  roots : Tiles rows none 0 roots rows.length
  children : ∀ {number} {row : Row}, rows[number]? = some row →
    Tiles rows (some number) (number + 1) row.children row.stop

section

variable {roots : List Nat} {rows : List Row} {outer inner number parent depth : Nat} {row : Row}

theorem Descends.concat (h : Descends rows outer depth parent) (found : rows[parent]? = some row)
    (last : number ∈ row.children) : Descends rows outer (depth + 1) number := by
  induction h with
  | here parent => exact .down found last (.here number)
  | down found' first _ ih => exact .down found' first (ih found)

variable (tiled : Tiled roots rows)

include tiled

/-- A node is a child of its parent. -/
theorem Tiled.exists_parent (found : rows[number]? = some row) (h : row.parent = some parent) :
    ∃ outer, rows[parent]? = some outer ∧ number ∈ outer.children := by
  have hlt := (List.getElem?_eq_some_iff.mp found).1
  rcases listed_of_tiles tiled.children tiled.roots (Nat.zero_le _) hlt with
    hroot | ⟨above, outer, houter, hchild⟩
  · rw [(root_iff_of_tiles tiled.children tiled.roots found).mp hroot] at h
    cases h
  · have habove := (child_iff_of_tiles tiled.children tiled.roots found houter).mp hchild
    rw [h] at habove
    obtain rfl := Option.some.inj habove
    exact ⟨outer, houter, hchild⟩

theorem Tiled.descends_succ_iff : Descends rows outer (depth + 1) number ↔
    ∃ row parent, rows[number]? = some row ∧ row.parent = some parent ∧
      Descends rows outer depth parent := by
  constructor
  · intro h
    induction depth generalizing outer with
    | zero =>
      cases h with
      | down found first later =>
        cases later
        obtain ⟨row, hrow, hparent, -⟩ := row_of_tiles (tiled.children found) first
        exact ⟨row, outer, hrow, hparent, .here outer⟩
    | succ depth ih =>
      cases h with
      | down found first later =>
        obtain ⟨row, parent, hrow, hparent, hdown⟩ := ih later
        exact ⟨row, parent, hrow, hparent, .down found first hdown⟩
  · rintro ⟨row, parent, hrow, hparent, h⟩
    obtain ⟨above, habove, hchild⟩ := tiled.exists_parent hrow hparent
    exact h.concat habove hchild

theorem Tiled.add_le (h : Descends rows outer depth number) : outer + depth ≤ number := by
  induction h with
  | here => exact Nat.le_refl _
  | down found first _ ih =>
    obtain ⟨-, -, -, hle, -⟩ := row_of_tiles (tiled.children found) first
    omega

/-- What lies around a node lies around its parent, or is its parent. -/
theorem Tiled.isAround_iff : IsAround rows outer number ↔
    ∃ row parent, rows[number]? = some row ∧ row.parent = some parent ∧
      (outer = parent ∨ IsAround rows outer parent) := by
  unfold IsAround
  constructor
  · rintro ⟨depth, h⟩
    obtain ⟨row, parent, hrow, hparent, hdown⟩ := tiled.descends_succ_iff.mp h
    refine ⟨row, parent, hrow, hparent, ?_⟩
    cases depth with
    | zero =>
      cases hdown
      exact Or.inl rfl
    | succ depth => exact Or.inr ⟨depth, hdown⟩
  · rintro ⟨row, parent, hrow, hparent, rfl | ⟨depth, h⟩⟩
    · exact ⟨0, tiled.descends_succ_iff.mpr ⟨row, outer, hrow, hparent, .here outer⟩⟩
    · exact ⟨depth + 1, tiled.descends_succ_iff.mpr ⟨row, parent, hrow, hparent, h⟩⟩

theorem Tiled.lt_of_isAround (h : IsAround rows outer number) : outer < number := by
  obtain ⟨depth, h⟩ := h
  have := tiled.add_le h
  omega

/-- Of two nodes around a node the one with the smaller number lies around the other. -/
theorem Tiled.isAround_of_lt (houter : IsAround rows outer number) (hinner : IsAround rows inner number)
    (hlt : outer < inner) : IsAround rows outer inner := by
  induction number using Nat.strongRecOn with
  | ind number ih =>
    obtain ⟨row, parent, hrow, hparent, houter⟩ := tiled.isAround_iff.mp houter
    obtain ⟨row', parent', hrow', hparent', hinner⟩ := tiled.isAround_iff.mp hinner
    obtain rfl := Option.some.inj (hrow.symm.trans hrow')
    obtain rfl := Option.some.inj (hparent.symm.trans hparent')
    have hup : parent < number :=
      tiled.lt_of_isAround (tiled.isAround_iff.mpr ⟨row, parent, hrow, hparent, Or.inl rfl⟩)
    rcases hinner with rfl | hinner
    · exact houter.resolve_left (Nat.ne_of_lt hlt)
    · rcases houter with rfl | houter
      · have := tiled.lt_of_isAround hinner
        omega
      · exact ih parent hup houter hinner

end

end Outline

namespace Forest

/-- The nodes of any forest are numbered so, not only those of a page. -/
theorem tiled_outline (forest : Forest) (omitted : Text) :
    Outline.Tiled (forest.numbers 0) (forest.outline omitted) := by
  obtain ⟨hroots, hchildren⟩ := tiles_rows omitted forest [] [] none none (List.append_nil _).symm
  have hlength : (forest.outline omitted).length = forest.size := length_rows _ _ _ _ _
  refine ⟨?_, fun {number row} hrow => ?_⟩
  · rwa [hlength, ← Nat.zero_add forest.size]
  · have hlt := (List.getElem?_eq_some_iff.mp hrow).1
    exact hchildren (Nat.zero_le _) (by rw [List.length_nil]; omega) hrow

end Forest

end Phrasebook.Markup
