import Phrasebook.Fault
import Phrasebook.Proofs.Outcome
import Phrasebook.Proofs.Position
import Phrasebook.Text.Search

/-!
# Guarded steps

A reader that keeps byte offsets into its source and numbers into its lists can fail where it takes a
slice, looks a number up, subtracts, asserts something, or goes round a loop. Here each such step has its
guard, and a step outside its guard is a trap. The readers of this library are written once more with
these steps, and no trap is ever met: what comes out is what the library says.
-/

namespace Phrasebook

/-- A step outside its guard. -/
inductive Trap where
  /-- A slice that ends inside a character, beyond the text, or before it begins. -/
  | slice
  /-- A number that a list has no item for. -/
  | index
  /-- A difference below zero. -/
  | underflow
  /-- A loop that goes on beyond its bound. -/
  | endless
  /-- An argument that a reader relies on being of another form. -/
  | assertion
  deriving DecidableEq, Repr

/-- What comes out of guarded steps. -/
abbrev Guarded := Except Trap

namespace Text

/-- The text up to `offset` and the text from there on, if a character begins there or the text ends. -/
def cut? (offset : Nat) : Text → Option (Text × Text)
  | [] => if offset = 0 then some ([], []) else none
  | c :: rest =>
    if offset = 0 then some ([], c :: rest)
    else if c.utf8Size ≤ offset then
      (cut? (offset - c.utf8Size) rest).map fun (before, behind) => (c :: before, behind)
    else none

/-- The text between two offsets, if both are ends of characters. -/
def slice? (start stop : Nat) (text : Text) : Option Text :=
  if start ≤ stop then
    (cut? start text).bind fun (_, rest) => (cut? (stop - start) rest).map Prod.fst
  else none

/-- The offset of the first `mark`. -/
def find? (mark text : Text) : Option Nat :=
  (split? mark text).map fun (before, _) => byteLength before

theorem cut?_eq_some_iff {offset : Nat} {text before behind : Text} :
    cut? offset text = some (before, behind) ↔
      text = before ++ behind ∧ byteLength before = offset := by
  induction text generalizing offset before behind with
  | nil =>
    rw [cut?]
    split
    · rename_i hzero
      simp only [Option.some.injEq, Prod.mk.injEq, List.nil_eq_append_iff, hzero]
      constructor
      · rintro ⟨rfl, rfl⟩
        simp
      · rintro ⟨⟨rfl, rfl⟩, -⟩
        simp
    · rename_i hne
      simp only [reduceCtorEq, false_iff, List.nil_eq_append_iff]
      rintro ⟨⟨rfl, -⟩, hzero⟩
      exact hne hzero.symm
  | cons c rest ih =>
    have hpos := c.utf8Size_pos
    rw [cut?]
    cases before with
    | nil =>
      split
      · rename_i hzero
        simp [hzero]
      · rename_i hne
        simp only [byteLength_nil, Ne.symm hne, and_false, iff_false]
        split <;> simp
    | cons d before =>
      split
      · rename_i hzero
        simp only [Option.some.injEq, Prod.mk.injEq, reduceCtorEq, false_and, false_iff,
          byteLength_cons, hzero]
        have := d.utf8Size_pos
        omega
      · split
        · rename_i hle
          simp only [Option.map_eq_some_iff, Prod.exists, Prod.mk.injEq, List.cons.injEq,
            byteLength_cons, List.cons_append, ih]
          constructor
          · rintro ⟨_, _, ⟨rfl, hlength⟩, ⟨rfl, rfl⟩, rfl⟩
            exact ⟨⟨rfl, rfl⟩, by omega⟩
          · rintro ⟨⟨rfl, rfl⟩, hlength⟩
            exact ⟨before, behind, ⟨rfl, by omega⟩, ⟨rfl, rfl⟩, rfl⟩
        · rename_i hle
          simp only [reduceCtorEq, false_iff, List.cons_append, List.cons.injEq, byteLength_cons]
          rintro ⟨⟨rfl, -⟩, hlength⟩
          omega

example : cut? 1 "é" = none := by decide

theorem cut?_append (ahead : Text) (offset : Nat) (text : Text) :
    cut? (byteLength ahead + offset) (ahead ++ text) =
      (cut? offset text).map fun (before, behind) => (ahead ++ before, behind) := by
  induction ahead with
  | nil => simp
  | cons c ahead ih =>
    have := c.utf8Size_pos
    rw [List.cons_append, cut?, byteLength_cons, if_neg (by omega), if_pos (by omega), Nat.add_assoc,
      Nat.add_sub_cancel_left, ih, Option.map_map]
    rfl

theorem slice?_append (ahead : Text) (start stop : Nat) (text : Text) :
    slice? (byteLength ahead + start) (byteLength ahead + stop) (ahead ++ text) =
      slice? start stop text := by
  rw [slice?, slice?, cut?_append, Nat.add_sub_add_left]
  simp only [Nat.add_le_add_iff_left]
  cases cut? start text <;> rfl

theorem slice?_eq_some_iff {start stop : Nat} {text inside : Text} :
    slice? start stop text = some inside ↔ ∃ before behind,
      text = before ++ (inside ++ behind) ∧ byteLength before = start ∧
        start + byteLength inside = stop := by
  unfold slice?
  split
  · rename_i hle
    simp only [Option.bind_eq_some_iff, Option.map_eq_some_iff, Prod.exists, cut?_eq_some_iff]
    constructor
    · rintro ⟨before, _, ⟨rfl, hstart⟩, _, behind, ⟨rfl, hlength⟩, rfl⟩
      exact ⟨before, behind, rfl, hstart, by omega⟩
    · rintro ⟨before, behind, rfl, hstart, hlength⟩
      exact ⟨before, inside ++ behind, ⟨rfl, hstart⟩, inside, behind, ⟨rfl, by omega⟩, rfl⟩
  · rename_i hlt
    simp only [reduceCtorEq, false_iff]
    rintro ⟨-, -, -, -, hlength⟩
    omega

theorem eq_nil_of_byteLength_eq_zero {text : Text} (h : byteLength text = 0) : text = [] := by
  cases text with
  | nil => rfl
  | cons c rest =>
    have := c.utf8Size_pos
    rw [byteLength_cons] at h
    omega

theorem length_le_byteLength (text : Text) : text.length ≤ byteLength text := by
  induction text with
  | nil => exact Nat.le_refl 0
  | cons c rest ih =>
    have := c.utf8Size_pos
    rw [List.length_cons, byteLength_cons]
    omega

end Text

namespace Guarded

open Text

section

variable {α β : Type}

@[simp] theorem ok_bind (a : α) (next : α → Guarded β) : (Except.ok a >>= next) = next a := rfl

@[simp] theorem pure_eq_ok (a : α) : (pure a : Guarded α) = .ok a := rfl

/-! ## The steps -/

def orTrap (trap : Trap) : Option α → Guarded α
  | some a => .ok a
  | none => .error trap

/-- The text from `start` up to `stop`. -/
def slice (text : Text) (start stop : Nat) : Guarded Text := orTrap .slice (slice? start stop text)

/-- The text from `start` on. -/
def sliceFrom (text : Text) (start : Nat) : Guarded Text := slice text start (byteLength text)

/-- The text up to `stop`. -/
def sliceTo (text : Text) (stop : Nat) : Guarded Text := slice text 0 stop

/-- The item of a list with the given number. -/
def item (list : List α) (number : Nat) : Guarded α := orTrap .index list[number]?

/-- The items of a list from the given number on. -/
def itemsFrom (list : List α) (number : Nat) : Guarded (List α) :=
  if number ≤ list.length then .ok (list.drop number) else .error .index

/-- The items of a list before the given number. -/
def itemsTo (list : List α) (number : Nat) : Guarded (List α) :=
  if number ≤ list.length then .ok (list.take number) else .error .index

def minus (a b : Nat) : Guarded Nat := if b ≤ a then .ok (a - b) else .error .underflow

def ensure (holds : Bool) : Guarded Unit := if holds then .ok () else .error .assertion

/-- Goes on unless a fault has been found. -/
def unlessFault (outcome : Except Fault α) (next : α → Guarded (Except Fault β)) :
    Guarded (Except Fault β) :=
  match outcome with
  | .ok a => next a
  | .error fault => .ok (.error fault)

/-! ## Inside their guards -/

theorem slice_eq {text inside : Text} (before behind : Text) {start stop : Nat}
    (htext : text = before ++ (inside ++ behind)) (hstart : byteLength before = start)
    (hstop : start + byteLength inside = stop) : slice text start stop = .ok inside := by
  rw [slice, slice?_eq_some_iff.mpr ⟨before, behind, htext, hstart, hstop⟩, orTrap]

theorem sliceFrom_eq {text behind : Text} (before : Text) {start : Nat} (htext : text = before ++ behind)
    (hstart : byteLength before = start) : sliceFrom text start = .ok behind := by
  refine slice_eq before [] (htext.trans ?_) hstart ?_
  · rw [List.append_nil]
  · rw [htext, byteLength_append, hstart]

theorem sliceTo_eq {text before : Text} (behind : Text) {stop : Nat} (htext : text = before ++ behind)
    (hstop : byteLength before = stop) : sliceTo text stop = .ok before :=
  slice_eq [] behind htext rfl (by rw [hstop, Nat.zero_add])

theorem item_eq {list : List α} {number : Nat} {a : α} (h : list[number]? = some a) :
    item list number = .ok a := by rw [item, h, orTrap]

theorem itemsFrom_eq {list : List α} {number : Nat} (h : number ≤ list.length) :
    itemsFrom list number = .ok (list.drop number) := if_pos h

theorem itemsTo_eq {list : List α} {number : Nat} (h : number ≤ list.length) :
    itemsTo list number = .ok (list.take number) := if_pos h

theorem minus_eq {a b : Nat} (h : b ≤ a) : minus a b = .ok (a - b) := if_pos h

theorem ensure_eq {holds : Bool} (h : holds = true) : ensure holds = .ok () := if_pos h

theorem mapM_eq {f : α → Guarded β} {g : α → β} {list : List α} (h : ∀ a ∈ list, f a = .ok (g a)) :
    list.mapM f = .ok (list.map g) := by
  induction list with
  | nil => rfl
  | cons a rest ih =>
    obtain ⟨ha, hrest⟩ := List.forall_mem_cons.mp h
    rw [List.mapM_cons, ha, ok_bind, ih hrest]
    rfl

end

/-- A source from the place of a true position on. -/
theorem sliceFrom_position {source rest : Text} {position : Position}
    (h : position.PointsAt source rest) : sliceFrom source position.offset = .ok rest := by
  obtain ⟨before, hsource, rfl⟩ := h
  exact sliceFrom_eq before hsource rfl

/-- A part of a source behind the place of a true position. -/
theorem slice_position {source inside : Text} (before behind : Text) {position : Position}
    {start stop : Nat}
    (h : position.PointsAt source (before ++ (inside ++ behind)))
    (hstart : start = position.offset + byteLength before) (hstop : stop = start + byteLength inside) :
    slice source start stop = .ok inside := by
  obtain ⟨ahead, rfl, rfl⟩ := h
  refine slice_eq (ahead ++ before) behind (by simp) ?_ hstop.symm
  simp [hstart]

end Guarded

end Phrasebook
