import Mathlib.Data.List.Induction
import Phrasebook.Proofs.Position
import Phrasebook.Proofs.Text.Search
import Phrasebook.Text.Blank

/-!
# Line endings

A text may end its lines with a line feed, or with a carriage return before it. Trimming and counting
lines do not see the difference, and dropping the carriage returns undoes it.
-/

namespace Phrasebook.Text

/-- The text with a carriage return before each line break. -/
def withReturns (text : Text) : Text := text.flatMap fun c => if c = '\n' then ['\r', '\n'] else [c]

def withoutReturns (text : Text) : Text := text.filter (· ≠ '\r')

section

variable {text : Text} {c : Char}

@[simp] theorem withReturns_nil : withReturns [] = [] := rfl

theorem withReturns_append (a b : Text) : withReturns (a ++ b) = withReturns a ++ withReturns b :=
  List.flatMap_append

theorem withReturns_newline (rest : Text) : withReturns ('\n' :: rest) = '\r' :: '\n' :: withReturns rest :=
  rfl

theorem withReturns_cons (h : c ≠ '\n') (rest : Text) : withReturns (c :: rest) = c :: withReturns rest := by
  simp [withReturns, h]

theorem withReturns_of_not_mem (h : '\n' ∉ text) : withReturns text = text := by
  induction text with
  | nil => rfl
  | cons c rest ih =>
    rw [List.mem_cons, not_or] at h
    rw [withReturns_cons (Ne.symm h.1), ih h.2]

theorem length_withReturns (text : Text) :
    (withReturns text).length = text.length + newlines text := by
  induction text with
  | nil => rfl
  | cons c rest ih =>
    by_cases hc : c = '\n'
    · subst hc
      simp only [withReturns_newline, List.length_cons, ih, newlines, List.count_cons_self]
      omega
    · simp only [withReturns_cons hc, List.length_cons, ih, newlines, List.count_cons_of_ne hc]
      omega

theorem withReturns_eq_self_iff : withReturns text = text ↔ '\n' ∉ text := by
  refine ⟨fun h hmem => ?_, withReturns_of_not_mem⟩
  have hlength := length_withReturns text
  have hpos : 0 < newlines text := List.count_pos_iff.mpr hmem
  rw [h] at hlength
  omega

@[simp] theorem newlines_withReturns (text : Text) : newlines (withReturns text) = newlines text := by
  unfold newlines
  induction text with
  | nil => rfl
  | cons c rest ih =>
    by_cases hc : c = '\n'
    · subst hc
      simp [withReturns_newline, ih]
    · simp [withReturns_cons hc, List.count_cons_of_ne hc, ih]

theorem withoutReturns_withReturns (text : Text) :
    withoutReturns (withReturns text) = withoutReturns text := by
  induction text with
  | nil => rfl
  | cons c rest ih =>
    by_cases hc : c = '\n'
    · subst hc
      simpa [withReturns_newline, withoutReturns] using ih
    · simp only [withReturns_cons hc, withoutReturns, List.filter_cons] at ih ⊢
      rw [ih]

theorem withoutReturns_of_not_mem (h : '\r' ∉ text) : withoutReturns text = text := by
  refine List.filter_eq_self.mpr fun c hc => ?_
  have : c ≠ '\r' := fun heq => h (heq ▸ hc)
  simpa using this

/-- A carriage return comes between no two characters but before a line break. -/
theorem infix_of_infix_withReturns {mark : Text} (hmark : '\r' ∉ mark) (htext : '\r' ∉ text)
    (h : mark <:+: withReturns text) : mark <:+: text := by
  have hfilter : withoutReturns mark <:+: withoutReturns (withReturns text) := h.filter _
  rwa [withoutReturns_withReturns, withoutReturns_of_not_mem hmark,
    withoutReturns_of_not_mem htext] at hfilter

theorem not_mem_withReturns (hc : c ≠ '\r') (h : c ∉ text) : c ∉ withReturns text := by
  intro hmem
  obtain ⟨d, hd, hin⟩ := List.mem_flatMap.mp hmem
  split at hin
  · simp_all
  · simp_all

/-! ## Trimming -/

theorem trimStart_withReturns (text : Text) :
    trimStart (withReturns text) = withReturns (trimStart text) := by
  induction text with
  | nil => rfl
  | cons c rest ih =>
    by_cases hc : c = '\n'
    · subst hc
      exact ih
    · rw [withReturns_cons hc]
      by_cases hblank : isBlank c = true
      · simp only [trimStart, List.dropWhile_cons_of_pos hblank] at ih ⊢
        exact ih
      · simp only [trimStart, List.dropWhile_cons_of_neg hblank, withReturns_cons hc]

theorem trimEnd_concat (text : Text) (c : Char) :
    trimEnd (text ++ [c]) = if isBlank c then trimEnd text else text ++ [c] := by
  rw [trimEnd, List.reverse_append, List.reverse_singleton, List.singleton_append, List.dropWhile_cons]
  split
  · rfl
  · simp

theorem trimEnd_withReturns (text : Text) : trimEnd (withReturns text) = withReturns (trimEnd text) := by
  induction text using List.reverseRecOn with
  | nil => rfl
  | append_singleton text c ih =>
    rw [withReturns_append, trimEnd_concat]
    by_cases hc : c = '\n'
    · subst hc
      show trimEnd (withReturns text ++ ['\r', '\n']) = _
      rw [← List.singleton_append, ← List.append_assoc, trimEnd_concat, trimEnd_concat]
      exact ih
    · rw [withReturns_cons hc, withReturns_nil, trimEnd_concat]
      split
      · exact ih
      · rw [withReturns_append, withReturns_cons hc, withReturns_nil]

theorem trim_withReturns (text : Text) : trim (withReturns text) = withReturns (trim text) := by
  rw [trim, trimStart_withReturns, trimEnd_withReturns, trim]

theorem trim_concat_return (text : Text) : trim (text ++ ['\r']) = trim text := by
  rw [trim, trim, trimStart, trimStart, List.dropWhile_append]
  split
  · rename_i hempty
    rw [List.isEmpty_iff.mp hempty]
    rfl
  · rw [trimEnd_concat]
    rfl

end

/-! ## Texts put together -/

theorem withoutReturns_append (a b : Text) :
    withoutReturns (a ++ b) = withoutReturns a ++ withoutReturns b :=
  List.filter_append a b

theorem withoutReturns_join (separator : Text) (texts : List Text) :
    withoutReturns (join separator texts) = join (withoutReturns separator) (texts.map withoutReturns) := by
  match texts with
  | [] => rfl
  | [text] => simp [join]
  | first :: second :: others =>
    have hlater := withoutReturns_join separator (second :: others)
    rw [List.map_cons] at hlater
    rw [join_cons_cons, withoutReturns_append, withoutReturns_append, hlater, List.map_cons, List.map_cons,
      join_cons_cons]

theorem length_join_withReturns (separator : Text) (texts : List Text) :
    (join separator (texts.map withReturns)).length =
      (join separator texts).length + (texts.map newlines).sum := by
  match texts with
  | [] => rfl
  | [text] => simp [join, length_withReturns]
  | first :: second :: others =>
    have hlater := length_join_withReturns separator (second :: others)
    simp only [List.map_cons, join_cons_cons, List.length_append, length_withReturns,
      List.sum_cons] at hlater ⊢
    omega

end Phrasebook.Text
