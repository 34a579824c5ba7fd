import Phrasebook.Text.Basic

/-!
# Searching in text

A mark is looked for from the left, and what is found is the text on its two sides, so that no
reader handles indices.
-/

namespace Phrasebook.Text

/-- What follows `mark` in a text that begins with it. -/
def after? : Text → Text → Option Text
  | [], text => some text
  | _ :: _, [] => none
  | m :: mark, c :: rest => if m = c then after? mark rest else none

theorem after?_eq_some {mark text rest : Text} :
    after? mark text = some rest ↔ text = mark ++ rest := by
  induction mark generalizing text with
  | nil => simp [after?, eq_comm]
  | cons m mark ih =>
    cases text with
    | nil => simp [after?]
    | cons c text =>
      by_cases h : m = c
      · simp [after?, h, ih]
      · simp [after?, h, Ne.symm h]

/-- Whether the text begins with `mark`. -/
def begins (mark text : Text) : Bool := (after? mark text).isSome

/-- Whether the text begins with `mark`, up to the case of ASCII letters. -/
def beginsNoCase (mark text : Text) : Bool := sameName mark (text.take mark.length)

/-- The text before the first place where `found` holds of the rest, and that rest. -/
def breakWhere? (found : Text → Bool) : Text → Option (Text × Text)
  | [] => if found [] then some ([], []) else none
  | c :: rest =>
    if found (c :: rest) then some ([], c :: rest)
    else (breakWhere? found rest).map fun (before, after) => (c :: before, after)

theorem append_of_breakWhere? {found : Text → Bool} {text before after : Text}
    (h : breakWhere? found text = some (before, after)) : text = before ++ after := by
  induction text generalizing before with
  | nil => simp only [breakWhere?] at h; split at h <;> simp_all
  | cons c rest ih =>
    simp only [breakWhere?] at h
    split at h
    · simp_all
    · obtain ⟨⟨before', after'⟩, hb, heq⟩ := Option.map_eq_some_iff.1 h
      simp only [Prod.mk.injEq] at heq
      obtain ⟨rfl, rfl⟩ := heq
      simp [ih hb]

/-- The texts before and after the first occurrence of `mark`. -/
def split? (mark text : Text) : Option (Text × Text) :=
  (breakWhere? (begins mark) text).map fun (before, rest) => (before, rest.drop mark.length)

theorem append_of_split? {mark text before after : Text}
    (h : split? mark text = some (before, after)) : text = before ++ mark ++ after := by
  obtain ⟨⟨before', rest⟩, hb, heq⟩ := Option.map_eq_some_iff.1 h
  simp only [Prod.mk.injEq] at heq
  obtain ⟨rfl, rfl⟩ := heq
  have hrest : begins mark rest := by
    clear h
    induction text generalizing before' with
    | nil => simp only [breakWhere?] at hb; split at hb <;> simp_all
    | cons c text ih =>
      simp only [breakWhere?] at hb
      split at hb
      · simp_all
      · obtain ⟨⟨b, r⟩, hb', heq⟩ := Option.map_eq_some_iff.1 hb
        simp only [Prod.mk.injEq] at heq
        obtain ⟨_, rfl⟩ := heq
        exact ih b hb'
  obtain ⟨tail, ht⟩ := Option.isSome_iff_exists.1 hrest
  rw [append_of_breakWhere? hb, after?_eq_some.1 ht]
  simp

/-- The pieces between the occurrences of `separator`; a text without one is a single piece. -/
def pieces (separator : Char) : Text → List Text
  | [] => [[]]
  | c :: rest =>
    if c = separator then [] :: pieces separator rest
    else match pieces separator rest with
      | [] => [[c]]
      | piece :: others => (c :: piece) :: others

/-- The line without the carriage return at its end. -/
def dropReturn (line : Text) : Text := if line.getLast? = some '\r' then line.dropLast else line

/-- The lines of a text, without their line breaks `\n` or `\r\n`. What follows the last line break is
a line unless it is empty. -/
def lines (text : Text) : List Text :=
  let all := pieces '\n' text
  all.dropLast.map dropReturn ++ (all.getLast?.filter (· ≠ [])).toList

end Phrasebook.Text
