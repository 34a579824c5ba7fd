import Mathlib.Order.Monotone.Defs
import Phrasebook.LineIndex
import Phrasebook.Proofs.Position
import Phrasebook.Proofs.Text.Order

/-!
# The line of an offset

Halving finds how many lines begin at an offset or before it. That is one more than the line breaks among
the bytes before the offset, so that lines do not decrease, and the lines of a text that stands behind
another one go on where that one ends.
-/

namespace Phrasebook

open Text

/-! ## Counting the beginnings -/

/-- The line of an offset: so many lines begin at it or before. -/
def lineAt (starts : List Nat) (offset : Nat) : Nat := starts.countP fun start => start ≤ offset

theorem lineAt_lineStartsFrom_of_le {start offset : Nat} (h : offset ≤ start) (text : Text) :
    lineAt (lineStartsFrom start text) offset = 0 := by
  refine List.countP_eq_zero.mpr fun line hline => ?_
  have := lt_of_mem_lineStartsFrom hline
  simp
  omega

theorem lineAt_lineStartsFrom (start offset : Nat) (text : Text) :
    lineAt (lineStartsFrom start text) (start + offset) = newlinesBefore text offset := by
  induction text generalizing start offset with
  | nil => rfl
  | cons c rest ih =>
    have hpos := c.utf8Size_pos
    rw [newlinesBefore]
    by_cases hzero : offset = 0
    · rw [if_pos hzero, hzero, Nat.add_zero]
      exact lineAt_lineStartsFrom_of_le (Nat.le_refl start) (c :: rest)
    · rw [if_neg hzero, lineStartsFrom]
      have hrest : lineAt (lineStartsFrom (start + c.utf8Size) rest) (start + offset) =
          newlinesBefore rest (offset - c.utf8Size) := by
        by_cases hle : c.utf8Size ≤ offset
        · rw [← ih (start + c.utf8Size), show start + c.utf8Size + (offset - c.utf8Size) =
            start + offset by omega]
        · -- The offset is inside this character, and nothing before it is left.
          rw [lineAt_lineStartsFrom_of_le (by omega), show offset - c.utf8Size = 0 by omega]
          cases rest <;> rfl
      split
      · rename_i hbreak
        have hsize : c.utf8Size = 1 := by rw [hbreak]; rfl
        rw [← hrest, lineAt, List.countP_cons_of_pos (by simp; omega), Nat.add_comm]
        rfl
      · rw [Nat.zero_add]
        exact hrest

theorem lineAt_eq (source : Text) (offset : Nat) :
    lineAt (lineStarts source) offset = lineOf source offset := by
  rw [lineStarts, lineAt, List.countP_cons_of_pos (by simp), Nat.add_comm, lineOf]
  have hrest := lineAt_lineStartsFrom 0 offset source
  rw [Nat.zero_add] at hrest
  exact congrArg (1 + ·) hrest

theorem Position.IsIn.lineAt_eq {position : Position} {source : Text} (h : position.IsIn source) :
    lineAt (lineStarts source) position.offset = position.line := by
  rw [Phrasebook.lineAt_eq, h.line_eq]

/-! ## Halving -/

namespace LineIndex

/-- The items before `low` are smaller than the offset, and those from `high` on are larger. -/
structure Between (starts : Array Nat) (offset low high : Nat) : Prop where
  ordered : low ≤ high
  below : ∀ i (h : i < starts.size), i < low → starts[i] < offset
  above : ∀ i (h : i < starts.size), high ≤ i → offset < starts[i]

/-- The search has ended as it should. -/
inductive Found.IsRight (starts : Array Nat) (offset : Nat) : Found → Prop where
  | start {number : Nat} (bound : number < starts.size) (equal : starts[number] = offset) :
      IsRight starts offset (.start number)
  | inside {number : Nat} (bound : number ≤ starts.size) (between : Between starts offset number number) :
      IsRight starts offset (.inside number)

section

variable {starts : Array Nat} {offset low high : Nat}

theorem lt_of_ascending (ascending : starts.toList.Pairwise (· < ·)) {i j : Nat} (hlt : i < j)
    (hj : j < starts.size) : starts[i] < starts[j] := by
  have hpair := List.pairwise_iff_getElem.mp ascending i j (by simp; omega) (by simpa using hj) hlt
  simpa using hpair

theorem Between.right (ascending : starts.toList.Pairwise (· < ·)) (h : Between starts offset low high)
    {middle : Nat} (hmiddle : middle < high) (hbound : middle < starts.size)
    (hless : starts[middle] < offset) : Between starts offset (middle + 1) high := by
  refine ⟨hmiddle, fun i hi hlt => ?_, h.above⟩
  rcases Nat.lt_or_eq_of_le (Nat.le_of_lt_succ hlt) with hlt | rfl
  · exact Nat.lt_trans (lt_of_ascending ascending hlt hbound) hless
  · exact hless

theorem Between.left (ascending : starts.toList.Pairwise (· < ·)) (h : Between starts offset low high)
    {middle : Nat} (hmiddle : low ≤ middle) (hbound : middle < starts.size)
    (hless : offset < starts[middle]) : Between starts offset low middle := by
  refine ⟨hmiddle, h.below, fun i hi hle => ?_⟩
  rcases Nat.lt_or_eq_of_le hle with hlt | rfl
  · exact Nat.lt_trans hless (lt_of_ascending ascending hlt hi)
  · exact hless

theorem isRight_search (ascending : starts.toList.Pairwise (· < ·)) (bound : high ≤ starts.size)
    (h : Between starts offset low high) : (search starts offset low high bound).IsRight starts offset := by
  fun_induction search starts offset low high bound with
  | case1 low high bound hlt middle hequal => exact .start (by omega) hequal
  | case2 low high bound hlt middle hne hless ih =>
    exact ih (h.right ascending (by omega) (by omega) hless)
  | case3 low high bound hlt middle hne hnot ih =>
    exact ih (h.left ascending (by omega) (by omega) (by omega))
  | case4 low high bound hdone =>
    have hsame : high = low := by
      have := h.ordered
      omega
    exact .inside (by omega) (hsame ▸ h)

/-- So many items are not larger than the offset if these are the first ones. -/
theorem lineAt_of_split {number : Nat} (bound : number ≤ starts.size)
    (first : ∀ i (h : i < starts.size), i < number → starts[i] ≤ offset)
    (others : ∀ i (h : i < starts.size), number ≤ i → offset < starts[i]) :
    lineAt starts.toList offset = number := by
  have hfirst : (starts.toList.take number).countP (fun start => start ≤ offset) = number := by
    rw [List.countP_eq_length.mpr, List.length_take, Array.length_toList, Nat.min_eq_left bound]
    intro start hstart
    obtain ⟨i, hi, rfl⟩ := List.mem_take_iff_getElem.mp hstart
    rw [Array.length_toList] at hi
    simpa using first i (by omega) (by omega)
  have hothers : (starts.toList.drop number).countP (fun start => start ≤ offset) = 0 := by
    rw [List.countP_eq_zero]
    intro start hstart
    obtain ⟨i, hi, rfl⟩ := List.mem_drop_iff_getElem.mp hstart
    rw [Array.length_toList] at hi
    simpa using others (number + i) (by omega) (by omega)
  rw [lineAt, ← List.take_append_drop number starts.toList, List.countP_append, hfirst, hothers,
    Nat.add_zero]

/-- The line that has been found is the number of lines that begin at the offset or before it. -/
theorem Found.IsRight.line_eq (ascending : starts.toList.Pairwise (· < ·)) {found : Found}
    (h : found.IsRight starts offset) : found.line = lineAt starts.toList offset := by
  cases h with
  | @start number bound equal =>
    have hsplit : lineAt starts.toList offset = number + 1 := by
      refine lineAt_of_split bound (fun i hi hlt => ?_) fun i hi hle => ?_
      · rcases Nat.lt_or_eq_of_le (Nat.le_of_lt_succ hlt) with hlt | rfl
        · exact equal ▸ Nat.le_of_lt (lt_of_ascending ascending hlt bound)
        · exact Nat.le_of_eq equal
      · exact equal ▸ lt_of_ascending ascending hle hi
    exact hsplit.symm
  | @inside number bound between =>
    exact (lineAt_of_split bound (fun i hi hlt => Nat.le_of_lt (between.below i hi hlt)) between.above).symm

end

theorem lineOf_eq_lineAt (index : LineIndex) (offset : Nat) :
    index.lineOf offset = lineAt index.starts.toList offset :=
  (isRight_search index.ascending (Nat.le_refl _) ⟨Nat.zero_le _, fun _ _ h => absurd h (Nat.not_lt_zero _),
    fun _ h hle => absurd h (Nat.not_lt_of_le hle)⟩).line_eq index.ascending

/-- Halving finds what counting finds. -/
theorem lineOf_eq (text : Text) (offset : Nat) : (ofText text).lineOf offset = Text.lineOf text offset := by
  rw [lineOf_eq_lineAt, ofText, List.toList_toArray, lineAt_eq]

end LineIndex

/-! ## Line breaks among the bytes -/

namespace Text

theorem utf8_append (a b : Text) : utf8 (a ++ b) = utf8 a ++ utf8 b := List.flatMap_append

theorem length_utf8 (text : Text) : (utf8 text).length = byteLength text := by
  induction text with
  | nil => rfl
  | cons c rest ih => rw [utf8_cons, List.length_append, ih, String.length_utf8EncodeChar, byteLength_cons]

/-- The bytes of any other character are no line breaks. -/
theorem mem_utf8EncodeChar_iff {c : Char} : '\n'.toUInt8 ∈ String.utf8EncodeChar c ↔ c = '\n' := by
  have hvalue : c = '\n' ↔ c.val.toNat = 10 := by
    rw [← Char.val_inj, ← UInt32.toNat_inj]
    rfl
  have hbyte : ∀ n < 256, '\n'.toUInt8 = UInt8.ofNat n ↔ n = 10 := by
    intro n hn
    rw [← UInt8.toNat_inj, UInt8.toNat_ofNat', Nat.mod_eq_of_lt hn]
    exact eq_comm
  rw [hvalue]
  unfold String.utf8EncodeChar
  dsimp only
  -- One case for each number of bytes.
  split_ifs <;> simp (disch := omega) only [List.mem_cons, List.not_mem_nil, or_false, hbyte] <;> omega

theorem newlinesBefore_eq_count (text : Text) (offset : Nat) :
    newlinesBefore text offset = ((utf8 text).take offset).count '\n'.toUInt8 := by
  induction text generalizing offset with
  | nil => simp [newlinesBefore, utf8]
  | cons c rest ih =>
    rw [newlinesBefore]
    split
    · rename_i hzero
      simp [hzero]
    · rename_i hpos
      rw [utf8_cons, List.take_append, List.count_append, String.length_utf8EncodeChar, ← ih]
      congr 1
      by_cases hbreak : c = '\n'
      · -- One byte, and the offset is behind it.
        have hall : (String.utf8EncodeChar c).length ≤ offset := by
          rw [hbreak]
          exact Nat.one_le_iff_ne_zero.mpr hpos
        rw [if_pos hbreak, List.take_of_length_le hall, hbreak]
        rfl
      · rw [if_neg hbreak, eq_comm, List.count_eq_zero]
        exact fun hmem => hbreak (mem_utf8EncodeChar_iff.mp (List.mem_of_mem_take hmem))

end Text

/-! ## The line of an offset -/

/-- The line of an offset, inside the text or beyond it, is one more than the line breaks among the bytes
before it. -/
theorem LineIndex.lineOf_counts (text : Text) :
    (∀ offset, (ofText text).lineOf offset = 1 + ((utf8 text).take offset).count '\n'.toUInt8) ∧
      (∀ offset, (ofText text).lineOf offset = Text.lineOf text offset) ∧
      (∀ offset, 1 ≤ (ofText text).lineOf offset) ∧ Monotone (ofText text).lineOf ∧
      ∀ (before : Text) (offset : Nat), (ofText (before ++ text)).lineOf (byteLength before + offset) =
        (ofText (before ++ text)).lineOf (byteLength before) + (ofText text).lineOf offset - 1 := by
  have hcount : ∀ (text : Text) offset,
      (ofText text).lineOf offset = 1 + ((utf8 text).take offset).count '\n'.toUInt8 := by
    intro text offset
    rw [lineOf_eq, Text.lineOf, newlinesBefore_eq_count]
  refine ⟨hcount text, lineOf_eq text, fun offset => ?_, fun offset later hle => ?_,
    fun before offset => ?_⟩
  · rw [hcount]
    exact Nat.le_add_right ..
  · rw [hcount, hcount]
    have := ((List.take_prefix_take_left hle (l := utf8 text)).sublist).count_le '\n'.toUInt8
    omega
  · have hwhole : ∀ further, (ofText (before ++ text)).lineOf (byteLength before + further) =
        1 + (utf8 before).count '\n'.toUInt8 + ((utf8 text).take further).count '\n'.toUInt8 := by
      intro further
      rw [hcount, utf8_append, ← length_utf8, List.take_length_add_append, List.count_append,
        Nat.add_assoc]
    have hend := hwhole 0
    simp only [Nat.add_zero, List.take_zero, List.count_nil] at hend
    rw [hwhole, hend, hcount]
    omega

/-- On a line break, behind it, and beyond the end. -/
example : [2, 3, 6, 7, 100].map (LineIndex.ofText "ab\ncd\n\nef").lineOf = [1, 2, 3, 4, 4] := by cbv

end Phrasebook
