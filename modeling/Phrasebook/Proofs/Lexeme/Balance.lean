import Mathlib.Data.List.Induction
import Phrasebook.Lexeme.Balance
import Phrasebook.Proofs.Nesting

/-!
# Brackets that nest

The brackets of a list are accepted exactly if they are a nested word. If they are not, the fault is at the
first closing bracket that no word with brackets behind it can nest with, and where there is none, at the
innermost bracket that stays open.
-/

namespace Phrasebook.Lexeme

open Mark (Nested openBehind?)

/-! ## Brackets -/

def mark? (lexeme : Lexeme) : Option (Mark Bracket) :=
  match lexeme.kind with
  | .opening bracket => some (.opening bracket)
  | .closing bracket => some (.closing bracket)
  | _ => none

/-- The brackets among the lexemes. What stands in a literal or in a comment is none. -/
def marks (lexemes : List Lexeme) : List (Mark Bracket) := lexemes.filterMap mark?

/-- Brackets can follow these lexemes so that all of them nest. -/
def Extendable (lexemes : List Lexeme) : Prop := ∃ later, Nested (marks lexemes ++ later)

/-- Of the brackets that stay open the last one: all that stands behind it nests. -/
structure IsInnermost (lexemes : List Lexeme) (opener : Lexeme) (bracket : Bracket) : Prop where
  kind : opener.kind = .opening bracket
  nests : ∃ outside inside, lexemes = outside ++ opener :: inside ∧ Nested (marks inside)

/-- The closing bracket behind `before` is the first that makes nesting impossible. -/
structure IsFirstMisfit (before : List Lexeme) (closer : Lexeme) (bracket : Bracket) : Prop where
  kind : closer.kind = .closing bracket
  fits : Extendable before
  misfits : ¬ Extendable (before ++ [closer])

/-- What is wrong with the brackets of a list, and where. -/
inductive Blamed (lexemes : List Lexeme) : Fault → Prop where
  | unexpected {before behind : List Lexeme} {closer : Lexeme} {bracket : Bracket}
    (split : lexemes = before ++ closer :: behind) (first : IsFirstMisfit before closer bracket)
    (nothingOpen : Nested (marks before)) :
    Blamed lexemes ⟨.unexpectedClose [bracket.closer], closer.position⟩
  | mismatched {before behind : List Lexeme} {closer opener : Lexeme} {bracket expected : Bracket}
    (split : lexemes = before ++ closer :: behind) (first : IsFirstMisfit before closer bracket)
    (innermost : IsInnermost before opener expected) :
    Blamed lexemes ⟨.mismatchedClose [expected.closer] [bracket.closer], closer.position⟩
  | unclosed {opener : Lexeme} {bracket : Bracket} (fits : Extendable lexemes)
    (innermost : IsInnermost lexemes opener bracket) :
    Blamed lexemes ⟨.unclosed [bracket.opener], opener.position⟩

section

variable {lexeme opener : Lexeme} {bracket : Bracket} {before inside rest : List Lexeme}
variable {opened outer : List OpenBracket}

theorem marks_append (before behind : List Lexeme) : marks (before ++ behind) = marks before ++ marks behind :=
  List.filterMap_append

theorem mark?_of_opening (h : lexeme.kind = .opening bracket) : mark? lexeme = some (.opening bracket) := by
  rw [mark?, h]

theorem mark?_of_closing (h : lexeme.kind = .closing bracket) : mark? lexeme = some (.closing bracket) := by
  rw [mark?, h]

theorem mark?_eq_closing_iff : mark? lexeme = some (.closing bracket) ↔ lexeme.kind = .closing bracket := by
  unfold mark?
  cases lexeme.kind <;> simp

theorem marks_cons_of_some {mark : Mark Bracket} (h : mark? lexeme = some mark) (rest : List Lexeme) :
    marks (lexeme :: rest) = mark :: marks rest :=
  List.filterMap_cons_some h

theorem marks_cons_of_none (h : mark? lexeme = none) (rest : List Lexeme) :
    marks (lexeme :: rest) = marks rest :=
  List.filterMap_cons_none h

/-- The three ways in which a lexeme counts. -/
theorem mark?_cases (lexeme : Lexeme) :
    (∃ bracket, lexeme.kind = .opening bracket) ∨ (∃ bracket, lexeme.kind = .closing bracket) ∨
      mark? lexeme = none := by
  unfold mark?
  cases lexeme.kind <;> simp

theorem Extendable.of_append (h : Extendable (before ++ rest)) : Extendable before := by
  obtain ⟨later, hlater⟩ := h
  rw [marks_append, List.append_assoc] at hlater
  exact ⟨_, hlater⟩

theorem extendable_iff : Extendable before ↔ ∃ names, openBehind? [] (marks before) = some names :=
  Mark.exists_nested_append_iff

/-! ## Steps of the check -/

theorem checkFrom_opening (h : lexeme.kind = .opening bracket) :
    checkFrom opened (lexeme :: rest) = checkFrom (⟨bracket, lexeme.position⟩ :: opened) rest := by
  rw [checkFrom, h]

theorem checkFrom_closing (h : lexeme.kind = .closing bracket) (position : Position) :
    checkFrom (⟨bracket, position⟩ :: opened) (lexeme :: rest) = checkFrom opened rest := by
  rw [checkFrom, h]
  exact if_pos rfl

theorem checkFrom_other (h : mark? lexeme = none) :
    checkFrom opened (lexeme :: rest) = checkFrom opened rest := by
  unfold mark? at h
  rw [checkFrom]
  split at h <;> simp_all

theorem checkFrom_append_of_openBehind? (extra : List OpenBracket)
    (h : openBehind? (extra.map OpenBracket.bracket) (marks inside) = some []) :
    checkFrom (extra ++ opened) (inside ++ rest) = checkFrom opened rest := by
  induction inside generalizing extra with
  | nil =>
    obtain rfl : extra = [] := List.map_eq_nil_iff.mp (Option.some.inj h)
    rfl
  | cons lexeme inside ih =>
    rw [List.cons_append]
    rcases mark?_cases lexeme with ⟨bracket, hkind⟩ | ⟨bracket, hkind⟩ | hnone
    · rw [marks_cons_of_some (mark?_of_opening hkind), openBehind?] at h
      rw [checkFrom_opening hkind]
      exact ih (⟨bracket, lexeme.position⟩ :: extra) h
    · rw [marks_cons_of_some (mark?_of_closing hkind)] at h
      cases extra with
      | nil => cases h
      | cons innermost extra =>
        obtain ⟨name, position⟩ := innermost
        rw [List.map_cons, openBehind?, Option.ite_none_right_eq_some] at h
        obtain ⟨rfl, h⟩ := h
        rw [List.cons_append, checkFrom_closing hkind]
        exact ih extra h
    · rw [marks_cons_of_none hnone] at h
      rw [checkFrom_other hnone]
      exact ih extra h

/-- Brackets that nest leave the check where it was. -/
theorem checkFrom_append_of_nested (h : Nested (marks inside)) :
    checkFrom opened (inside ++ rest) = checkFrom opened rest :=
  checkFrom_append_of_openBehind? [] (Mark.openBehind?_nested h [])

/-! ## What is open -/

/-- The brackets that these lexemes leave open, the innermost first. -/
inductive Leaves : List Lexeme → List OpenBracket → Prop where
  | nothing {before : List Lexeme} (nests : Nested (marks before)) : Leaves before []
  | bracket {outside inside : List Lexeme} {opener : Lexeme} {bracket : Bracket} {outer : List OpenBracket}
    (kind : opener.kind = .opening bracket) (nests : Nested (marks inside)) (outside_leaves : Leaves outside outer) :
    Leaves (outside ++ opener :: inside) (⟨bracket, opener.position⟩ :: outer)

theorem Leaves.append (h : Leaves before opened) (hrest : Nested (marks rest)) :
    Leaves (before ++ rest) opened := by
  cases h with
  | nothing nests =>
    refine .nothing ?_
    rw [marks_append]
    exact nests.append hrest
  | bracket kind nests outside_leaves =>
    rw [List.append_assoc, List.cons_append]
    refine .bracket kind ?_ outside_leaves
    rw [marks_append]
    exact nests.append hrest

theorem Leaves.opening (h : Leaves before opened) (hkind : lexeme.kind = .opening bracket) :
    Leaves (before ++ [lexeme]) (⟨bracket, lexeme.position⟩ :: opened) :=
  .bracket hkind .nil h

theorem Leaves.closing {position : Position} (h : Leaves before (⟨bracket, position⟩ :: opened))
    (hkind : lexeme.kind = .closing bracket) : Leaves (before ++ [lexeme]) opened := by
  cases h with
  | @bracket outside inside opener _ _ kind nests outside_leaves =>
    rw [List.append_assoc]
    refine outside_leaves.append ?_
    rw [List.cons_append, marks_cons_of_some (mark?_of_opening kind), marks_append,
      marks_cons_of_some (mark?_of_closing hkind)]
    exact .wrap bracket nests .nil

theorem Leaves.other (h : Leaves before opened) (hnone : mark? lexeme = none) :
    Leaves (before ++ [lexeme]) opened := by
  refine h.append ?_
  rw [marks_cons_of_none hnone]
  exact .nil

theorem Leaves.openBehind?_eq (h : Leaves before opened) :
    openBehind? [] (marks before) = some (opened.map OpenBracket.bracket) := by
  induction h with
  | nothing nests => exact Mark.openBehind?_nested nests []
  | bracket kind nests _ ih =>
    rw [marks_append, marks_cons_of_some (mark?_of_opening kind), Mark.openBehind?_append, ih,
      Option.bind_some, openBehind?, Mark.openBehind?_nested nests, List.map_cons]

theorem Leaves.extendable (h : Leaves before opened) : Extendable before :=
  extendable_iff.mpr ⟨_, h.openBehind?_eq⟩

theorem Leaves.isInnermost {innermost : OpenBracket} (h : Leaves before (innermost :: outer)) :
    ∃ opener, IsInnermost before opener innermost.bracket := by
  cases h with
  | bracket kind nests _ => exact ⟨_, kind, _, _, rfl, nests⟩

/-- The check of a list goes on with what the lexemes so far leave open. -/
theorem Leaves.checkFrom_append (h : Leaves before opened) (rest : List Lexeme) :
    checkFrom [] (before ++ rest) = checkFrom opened rest := by
  induction h generalizing rest with
  | nothing nests => exact checkFrom_append_of_nested nests
  | bracket kind nests _ ih =>
    rw [List.append_assoc, ih, List.cons_append, checkFrom_opening kind, checkFrom_append_of_nested nests]

/-- A closing bracket fits exactly if it closes the innermost one. -/
theorem Leaves.extendable_closing_iff (h : Leaves before opened) (hkind : lexeme.kind = .closing bracket) :
    Extendable (before ++ [lexeme]) ↔ ∃ innermost ∈ opened.head?, innermost.bracket = bracket := by
  rw [extendable_iff, marks_append, Mark.openBehind?_append, h.openBehind?_eq, Option.bind_some,
    marks_cons_of_some (mark?_of_closing hkind)]
  cases opened with
  | nil => simp [openBehind?]
  | cons innermost outer => simp [openBehind?, marks]

theorem exists_leaves (h : Extendable before) : ∃ opened, Leaves before opened := by
  induction before using List.reverseRecOn with
  | nil => exact ⟨[], .nothing .nil⟩
  | append_singleton before lexeme ih =>
    obtain ⟨opened, hleaves⟩ := ih h.of_append
    rcases mark?_cases lexeme with ⟨bracket, hkind⟩ | ⟨bracket, hkind⟩ | hnone
    · exact ⟨_, hleaves.opening hkind⟩
    · obtain ⟨innermost, hhead, rfl⟩ := (hleaves.extendable_closing_iff hkind).mp h
      obtain ⟨outer, rfl⟩ := List.head?_eq_some_iff.mp hhead
      exact ⟨outer, hleaves.closing hkind⟩
    · exact ⟨opened, hleaves.other hnone⟩

/-! ## The blame -/

theorem IsInnermost.exists_leaves (h : IsInnermost before opener bracket) (fits : Extendable before) :
    ∃ outer, Leaves before (⟨bracket, opener.position⟩ :: outer) := by
  obtain ⟨hkind, outside, inside, rfl, hnests⟩ := h
  obtain ⟨outer, houter⟩ := Lexeme.exists_leaves fits.of_append
  exact ⟨outer, .bracket hkind hnests houter⟩

/-- Only a closing bracket can make nesting impossible. -/
theorem exists_first_misfit (h : ¬ Extendable before) : ∃ front closer behind bracket,
    before = front ++ closer :: behind ∧ IsFirstMisfit front closer bracket := by
  induction before using List.reverseRecOn with
  | nil => exact absurd ⟨[], .nil⟩ h
  | append_singleton before lexeme ih =>
    by_cases hbefore : Extendable before
    · obtain ⟨opened, hleaves⟩ := exists_leaves hbefore
      rcases mark?_cases lexeme with ⟨bracket, hkind⟩ | ⟨bracket, hkind⟩ | hnone
      · exact absurd (hleaves.opening hkind).extendable h
      · exact ⟨before, lexeme, [], bracket, rfl, hkind, hbefore, h⟩
      · exact absurd (hleaves.other hnone).extendable h
    · obtain ⟨front, closer, behind, bracket, rfl, hfirst⟩ := ih hbefore
      exact ⟨front, closer, behind ++ [lexeme], bracket, by simp, hfirst⟩

theorem nested_or_blamed (lexemes : List Lexeme) :
    Nested (marks lexemes) ∨ ∃ fault, Blamed lexemes fault := by
  by_cases hfits : Extendable lexemes
  · obtain ⟨opened, hleaves⟩ := exists_leaves hfits
    cases opened with
    | nil =>
      cases hleaves with
      | nothing nests => exact .inl nests
    | cons innermost outer =>
      obtain ⟨opener, hinnermost⟩ := hleaves.isInnermost
      exact .inr ⟨_, .unclosed hfits hinnermost⟩
  · obtain ⟨before, closer, behind, bracket, rfl, hfirst⟩ := exists_first_misfit hfits
    obtain ⟨opened, hleaves⟩ := exists_leaves hfirst.fits
    cases opened with
    | nil =>
      cases hleaves with
      | nothing nests => exact .inr ⟨_, .unexpected rfl hfirst nests⟩
    | cons innermost outer =>
      obtain ⟨opener, hinnermost⟩ := hleaves.isInnermost
      exact .inr ⟨_, .mismatched rfl hfirst hinnermost⟩

/-! ## The verdict -/

theorem checkBalance_of_nested {lexemes : List Lexeme} (h : Nested (marks lexemes)) :
    checkBalance lexemes = .ok () := by
  have hpassed : checkFrom [] (lexemes ++ []) = checkFrom [] [] := checkFrom_append_of_nested h
  rwa [List.append_nil] at hpassed

theorem checkBalance_of_blamed {lexemes : List Lexeme} {fault : Fault} (h : Blamed lexemes fault) :
    checkBalance lexemes = .error fault := by
  cases h with
  | unexpected split first nothingOpen =>
    rw [split, checkBalance, checkFrom_append_of_nested nothingOpen, checkFrom, first.kind]
  | @mismatched before behind closer opener bracket expected split first innermost =>
    obtain ⟨outer, hleaves⟩ := innermost.exists_leaves first.fits
    have hne : expected ≠ bracket := by
      rintro rfl
      exact first.misfits ((hleaves.extendable_closing_iff first.kind).mpr ⟨_, rfl, rfl⟩)
    rw [split, checkBalance, hleaves.checkFrom_append, checkFrom, first.kind]
    exact if_neg hne
  | unclosed fits innermost =>
    obtain ⟨outer, hleaves⟩ := innermost.exists_leaves fits
    have hend := hleaves.checkFrom_append []
    rw [List.append_nil] at hend
    rw [checkBalance, hend, checkFrom]

end

theorem checkBalance_eq_ok_iff {lexemes : List Lexeme} :
    checkBalance lexemes = .ok () ↔ Nested (marks lexemes) := by
  refine ⟨fun hok => (nested_or_blamed lexemes).resolve_right ?_, checkBalance_of_nested⟩
  rintro ⟨fault, hblamed⟩
  rw [checkBalance_of_blamed hblamed] at hok
  cases hok

/-- The check accepts a list exactly if its brackets nest, and where they do not, its fault is the one that is to
blame. -/
theorem checkBalance_verdict (lexemes : List Lexeme) :
    (checkBalance lexemes = .ok () ↔ Nested (marks lexemes)) ∧
      ∀ fault, checkBalance lexemes = .error fault ↔ Blamed lexemes fault := by
  refine ⟨checkBalance_eq_ok_iff, fun fault => ⟨fun herror => ?_, checkBalance_of_blamed⟩⟩
  rcases nested_or_blamed lexemes with hnested | ⟨blamed, hblamed⟩
  · rw [checkBalance_of_nested hnested] at herror
    cases herror
  · rw [checkBalance_of_blamed hblamed] at herror
    cases herror
    exact hblamed

end Phrasebook.Lexeme
