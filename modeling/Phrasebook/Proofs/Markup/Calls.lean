import Phrasebook.Proofs.Markup.Segments

/-!
# One call after another

A fault leaves the reader where it arises, and without the mark of raw text that it may have had. There
the next call meets the same fault, and at the end of a page it meets the end again. So the answers are
the tokens one by one, and behind the last of them all answers are the same.
-/

namespace Phrasebook.Markup

/-- What the call with this number answers, the first one having the number 0. -/
def TokenStream.answer (stream : TokenStream) (number : Nat) : Except Fault (Option Placed) :=
  match stream.tokens[number]? with
  | some token => .ok (some token)
  | none =>
    match stream.fault with
    | some fault => .error fault
    | none => .ok none

namespace Reader

section

variable {reader later : Reader} {answer : Except Fault (Option Placed)}

/-- The mark of raw text does not count where markup has no end. -/
theorem first_of_piece_error {c : Char} {rest : Text} {cause : Fault.Cause}
    (h : reader.piece c rest = .error cause) : Piece.first c rest = .error cause := by
  unfold piece at h
  split at h
  · cases h
  · exact h

/-- A call that answers without a token leaves a reader that answers the same and stays as it is. -/
theorem next_again (h : reader.next = (answer, later)) (hlast : ∀ token, answer ≠ .ok (some token)) :
    later.next = (answer, later) := by
  fun_induction next reader with
  | case1 reader hrest =>
    obtain ⟨rest, position, raw⟩ := reader
    cases h
    cases hrest
    exact next_nil position raw
  | case2 reader c rest hrest cause hpiece =>
    cases h
    rw [next_cons, piece_none, first_of_piece_error hpiece]
  | case3 reader c rest hrest piece hpiece token htoken =>
    cases h
    exact absurd rfl (hlast _)
  | case4 reader c rest hrest piece hpiece htoken ih => exact ih h

/-- The calls answer with the tokens of the stream, and then with its end or its fault over and over. -/
theorem steps_eq_map_answer (count : Nat) (reader : Reader) :
    steps count reader = (List.range count).map reader.stream.answer := by
  induction count generalizing reader with
  | zero => rfl
  | succ count ih =>
    rw [steps, ih, List.range_succ_eq_map, List.map_cons, List.map_map]
    cases hnext : reader.next with
    | mk answer later =>
      rcases answer with fault | _ | placed
      · rw [stream_eq reader, stream_eq later, next_again hnext (by simp), hnext]
        rfl
      · rw [stream_eq reader, stream_eq later, next_again hnext (by simp), hnext]
        rfl
      · rw [stream_eq reader, hnext]
        rfl

end

/-- Once a call has found a fault or the end of the page, every later call answers the same, and none of
them with a token. -/
theorem steps_again {source : Text} {count first later : Nat} {answer : Except Fault (Option Placed)}
    (h : (steps count (ofSource source))[first]? = some answer)
    (hlast : ∀ token, answer ≠ .ok (some token)) (hle : first ≤ later) (hlater : later < count) :
    (steps count (ofSource source))[later]? = some answer := by
  have hanswer (number : Nat) (hnumber : number < count) :
      (steps count (ofSource source))[number]? = some ((ofSource source).stream.answer number) := by
    rw [steps_eq_map_answer, List.getElem?_map, List.getElem?_range hnumber]
    rfl
  rw [hanswer first (by omega)] at h
  cases h
  -- What is no token stands behind all tokens, and so do the later answers.
  have hend : (ofSource source).stream.tokens[first]? = none := by
    cases hfirst : (ofSource source).stream.tokens[first]? with
    | none => rfl
    | some token =>
      refine absurd ?_ (hlast token)
      rw [TokenStream.answer, hfirst]
  have hend' : (ofSource source).stream.tokens[later]? = none :=
    List.getElem?_eq_none ((List.getElem?_eq_none_iff.mp hend).trans hle)
  rw [hanswer later hlater, TokenStream.answer, TokenStream.answer, hend, hend']

/-- The end tag of the script has no end itself. The call that finds this is made with the mark of raw
text, and the calls behind it without. -/
theorem steps_again_script :
    let answers := steps 4 (ofSource "<script></script")
    let answer : Except Fault (Option Placed) := .error ⟨.unterminatedTag, ⟨8, 1⟩⟩
    answers[1]? = some answer ∧ answers[3]? = some answer := by
  intro answers answer
  have hanswer : answers[1]? = some answer := by decide +kernel
  exact ⟨hanswer, steps_again hanswer (by simp [answer]) (by omega) (by omega)⟩

end Reader

end Phrasebook.Markup
