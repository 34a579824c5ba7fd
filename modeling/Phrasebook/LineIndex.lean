import Phrasebook.Position

/-!
# Lines by their beginnings

Whoever holds a bare offset looks its line up among the offsets where lines begin. They ascend, so that
halving finds the place.
-/

namespace Phrasebook

/-! ## The beginnings of lines -/

/-- The offsets behind the line breaks of a text that begins at `start`. -/
def lineStartsFrom (start : Nat) : Text → List Nat
  | [] => []
  | c :: rest =>
    let next := start + c.utf8Size
    if c = '\n' then next :: lineStartsFrom next rest else lineStartsFrom next rest

/-- The offsets where the lines of a source begin. -/
def lineStarts (source : Text) : List Nat := 0 :: lineStartsFrom 0 source

theorem lt_of_mem_lineStartsFrom {start line : Nat} {text : Text} (h : line ∈ lineStartsFrom start text) :
    start < line := by
  induction text generalizing start with
  | nil => cases h
  | cons c rest ih =>
    have hpos := c.utf8Size_pos
    have hrest : line ∈ lineStartsFrom (start + c.utf8Size) rest → start < line := fun hmem => by
      have := ih hmem
      omega
    rw [lineStartsFrom] at h
    split at h
    · rcases List.mem_cons.mp h with rfl | hmem
      · omega
      · exact hrest hmem
    · exact hrest h

theorem pairwise_lineStartsFrom (start : Nat) (text : Text) :
    (lineStartsFrom start text).Pairwise (· < ·) := by
  induction text generalizing start with
  | nil => exact .nil
  | cons c rest ih =>
    rw [lineStartsFrom]
    split
    · exact .cons (fun _ => lt_of_mem_lineStartsFrom) (ih _)
    · exact ih _

/-- Lines begin one behind the other. -/
theorem pairwise_lineStarts (source : Text) : (lineStarts source).Pairwise (· < ·) :=
  .cons (fun _ => lt_of_mem_lineStartsFrom) (pairwise_lineStartsFrom 0 source)

/-! ## The index -/

/-- The beginnings of the lines of a text, in ascending order. -/
structure LineIndex where
  starts : Array Nat
  ascending : starts.toList.Pairwise (· < ·)

namespace LineIndex

/-- What a search for an offset among beginnings ends with. -/
inductive Found where
  /-- A line begins there, with so many before it. -/
  | start (number : Nat)
  /-- No line begins there, and so many begin before it. -/
  | inside (number : Nat)
  deriving DecidableEq, Repr

/-- The line that has been found, counted from one. -/
def Found.line : Found → Nat
  | start number => number + 1
  | inside number => number

/-- Searches for the offset among the items from `low` up to `high`, by halving. -/
def search (starts : Array Nat) (offset low high : Nat) (bound : high ≤ starts.size) : Found :=
  if _h : low < high then
    let middle := (low + high) / 2
    if starts[middle] = offset then .start middle
    else if starts[middle] < offset then search starts offset (middle + 1) high bound
    else search starts offset low middle (by omega)
  else .inside low
  termination_by high - low

def ofText (text : Text) : LineIndex := ⟨(lineStarts text).toArray, pairwise_lineStarts text⟩

/-- The line of the byte at `offset`. -/
def lineOf (index : LineIndex) (offset : Nat) : Nat :=
  (search index.starts offset 0 index.starts.size (Nat.le_refl _)).line

end LineIndex

end Phrasebook
