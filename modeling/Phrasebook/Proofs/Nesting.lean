import Phrasebook.Text.Basic

/-!
# Nested words

Opening and closing marks nest if each closing mark meets the last mark that is still open, under the
same name, and no mark stays open. A stack of the names that are open decides this.
-/

namespace Phrasebook

/-- One end of what is called `name`. -/
inductive Mark (α : Type) where
  | opening (name : α)
  | closing (name : α)
  deriving DecidableEq, Repr

namespace Mark

variable {α : Type}

inductive Nested : List (Mark α) → Prop where
  | nil : Nested []
  | wrap (name : α) {inside behind : List (Mark α)} (hi : Nested inside) (hb : Nested behind) :
    Nested (.opening name :: (inside ++ .closing name :: behind))

theorem Nested.append {word later : List (Mark α)} (hw : Nested word) (hl : Nested later) :
    Nested (word ++ later) := by
  induction hw with
  | nil => exact hl
  | wrap name hi _ _ ihb =>
    rw [List.cons_append, List.append_assoc, List.cons_append]
    exact .wrap name hi ihb

variable [DecidableEq α]

/-- The names that are open behind a word, the innermost first, unless a closing mark does not fit. -/
def openBehind? (opened : List α) : List (Mark α) → Option (List α)
  | [] => some opened
  | .opening name :: later => openBehind? (name :: opened) later
  | .closing name :: later =>
    match opened with
    | [] => none
    | innermost :: outer => if innermost = name then openBehind? outer later else none

theorem openBehind?_append (opened : List α) (word later : List (Mark α)) :
    openBehind? opened (word ++ later) =
      (openBehind? opened word).bind fun behind => openBehind? behind later := by
  induction word generalizing opened with
  | nil => rfl
  | cons mark word ih =>
    cases mark with
    | opening name => exact ih _
    | closing name =>
      cases opened with
      | nil => rfl
      | cons innermost outer =>
        simp only [List.cons_append, openBehind?]
        split
        · exact ih _
        · rfl

theorem openBehind?_nested {word : List (Mark α)} (h : Nested word) (opened : List α) :
    openBehind? opened word = some opened := by
  induction h generalizing opened with
  | nil => rfl
  | wrap name _ _ ihi ihb =>
    rw [openBehind?, openBehind?_append, ihi, Option.bind_some, openBehind?, if_pos rfl, ihb]

/-- What is not closed stays open. -/
theorem mem_of_openBehind? {name : α} {opened behind : List α} {word : List (Mark α)}
    (h : openBehind? opened word = some behind) (hmem : name ∈ opened) (hopen : closing name ∉ word) :
    name ∈ behind := by
  induction word generalizing opened with
  | nil => exact Option.some.inj h ▸ hmem
  | cons mark word ih =>
    rw [List.mem_cons, not_or] at hopen
    cases mark with
    | opening other => exact ih h (List.mem_cons_of_mem other hmem) hopen.2
    | closing other =>
      cases opened with
      | nil => cases h
      | cons innermost outer =>
        rw [openBehind?, Option.ite_none_right_eq_some] at h
        obtain ⟨rfl, h⟩ := h
        have hne : name ≠ innermost := fun heq => hopen.1 (congrArg closing heq)
        exact ih h ((List.mem_cons.mp hmem).resolve_left hne) hopen.2

/-- The word closes what is open and nests otherwise. -/
def Closes : List α → List (Mark α) → Prop
  | [], word => Nested word
  | name :: outer, word =>
    ∃ inside behind, word = inside ++ .closing name :: behind ∧ Nested inside ∧ Closes outer behind

theorem closes_of_openBehind? {word : List (Mark α)} {opened : List α}
    (h : openBehind? opened word = some []) : Closes opened word := by
  induction word generalizing opened with
  | nil =>
    cases h
    exact .nil
  | cons mark word ih =>
    cases mark with
    | opening name =>
      obtain ⟨inside, behind, rfl, hinside, hbehind⟩ := ih h
      cases opened with
      | nil => exact .wrap name hinside hbehind
      | cons innermost outer =>
        obtain ⟨more, last, rfl, hmore, hlast⟩ := hbehind
        exact ⟨.opening name :: (inside ++ .closing name :: more), last, by simp,
          .wrap name hinside hmore, hlast⟩
    | closing name =>
      cases opened with
      | nil => cases h
      | cons innermost outer =>
        rw [openBehind?, Option.ite_none_right_eq_some] at h
        obtain ⟨rfl, h⟩ := h
        exact ⟨[], word, rfl, .nil, ih h⟩

theorem nested_iff {word : List (Mark α)} : Nested word ↔ openBehind? [] word = some [] :=
  ⟨fun h => openBehind?_nested h [], closes_of_openBehind?⟩

theorem openBehind?_closing (opened : List α) : openBehind? opened (opened.map closing) = some [] := by
  induction opened with
  | nil => rfl
  | cons name opened ih => rw [List.map_cons, openBehind?, if_pos rfl, ih]

/-- A word is the beginning of a nested one exactly if all of its closing marks fit. -/
theorem exists_nested_append_iff {word : List (Mark α)} :
    (∃ later, Nested (word ++ later)) ↔ ∃ names, openBehind? [] word = some names := by
  simp only [nested_iff, openBehind?_append, Option.bind_eq_some_iff]
  constructor
  · rintro ⟨_, names, hnames, -⟩
    exact ⟨names, hnames⟩
  · rintro ⟨names, hnames⟩
    exact ⟨names.map closing, names, hnames, openBehind?_closing names⟩

end Mark

end Phrasebook
