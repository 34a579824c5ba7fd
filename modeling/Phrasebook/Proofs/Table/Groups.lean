import Mathlib.Data.List.Basic
import Phrasebook.Proofs.Lexeme.Balance
import Phrasebook.Proofs.Table.Declarations

/-!
# Groups of constants

A group ends at the bracket that closes it, but its reader leaves it at the first closing round bracket. So
the specifications behind a pair of round brackets are not read, nor is one whose name is taken for the type
of the name before it.
-/

namespace Phrasebook.Table

open Lexeme
open Mark (Nested)

/-! ## Groups and what they hold -/

/-- The word `const` and round brackets, and what stands around them and in them. -/
structure Group where
  /-- The lexemes before the word, the nearest first. -/
  before : List Lexeme
  word : Lexeme
  opener : Lexeme
  inside : List Lexeme
  closer : Lexeme
  /-- The lexemes behind the group, the nearest first. -/
  behind : List Lexeme
  word_const : IsConst word
  opener_kind : opener.kind = .opening .round
  closer_kind : closer.kind = .closing .round
  nests : Nested (marks inside)

namespace Group

/-- The group stands in this code where it says. -/
def IsIn (code : List Lexeme) (group : Group) : Prop :=
  code = group.before.reverse ++ group.word :: group.opener :: (group.inside ++ group.closer :: group.behind)

/-- The specification is one of the group itself, behind the lexemes of `front`. -/
structure Holds (group : Group) (front : List Lexeme) (spec : Specification) : Prop where
  before : spec.before = front.reverse ++ group.opener :: group.word :: group.before
  inside : ∃ rest, group.inside = front ++ spec.name :: (spec.following ++ rest) ∧
    spec.behind = rest ++ group.closer :: group.behind
  /-- It stands in no other brackets. -/
  level : Nested (marks front)
  /-- No other `const` declares it. -/
  own : ∀ previous ∈ front.getLast?, ¬ IsConst previous

end Group

section

variable {code lexemes before front : List Lexeme} {group : Group} {spec : Specification}

theorem marks_withoutComments (lexemes : List Lexeme) : marks (withoutComments lexemes) = marks lexemes := by
  rw [marks, withoutComments, List.filterMap_filter]
  refine List.filterMap_congr fun lexeme _ => ?_
  obtain ⟨kind, text, position⟩ := lexeme
  cases kind <;> rfl

/-- In balanced code every group is closed. -/
theorem exists_group {word opener : Lexeme} {rest : List Lexeme} (hbalance : Nested (marks code))
    (hcode : code = before ++ word :: opener :: rest) (hword : IsConst word)
    (hopener : opener.kind = .opening .round) : ∃ group : Group, group.IsIn code ∧ group.before = before.reverse := by
  have hnone : mark? word = none := by rw [mark?, hword.1]
  rw [hcode, marks_append, marks_cons_of_none hnone, marks_cons_of_some (mark?_of_opening hopener),
    Mark.nested_iff, Mark.openBehind?_append, Option.bind_eq_some_iff] at hbalance
  obtain ⟨names, -, hrest⟩ := hbalance
  rw [Mark.openBehind?] at hrest
  obtain ⟨nested, later, hmarks, hnested, -⟩ := Mark.closes_of_openBehind? hrest
  obtain ⟨inside, closing, rfl, hinside, hclosing⟩ := List.filterMap_eq_append_iff.mp hmarks
  obtain ⟨skipped, closer, behind, rfl, hskipped, hcloser, -⟩ := List.filterMap_eq_cons_iff.mp hclosing
  have hempty : marks skipped = [] := List.filterMap_eq_nil_iff.mpr hskipped
  have hkind : closer.kind = .closing .round := mark?_eq_closing_iff.mp hcloser
  have hall : Nested (marks (inside ++ skipped)) := by
    rw [marks_append, hempty, List.append_nil, marks, hinside]
    exact hnested
  exact ⟨⟨before.reverse, word, opener, inside ++ skipped, closer, behind, hword, hopener, hkind, hall⟩,
    by simp [Group.IsIn, hcode], rfl⟩

/-! ## How far the reader gets -/

/-- Where a group is open, no round bracket has been closed since its own was opened. -/
theorem exists_opener_of_inGroup (h : InGroup before) : ∃ inner bracket word outer,
    before = inner ++ bracket :: word :: outer ∧ bracket.kind = .opening .round ∧
      ∀ lexeme ∈ inner, lexeme.kind ≠ .closing .round := by
  induction h with
  | opened hbracket _ => exact ⟨[], _, _, _, rfl, hbracket, by simp⟩
  | inside hopen _ ih =>
    obtain ⟨inner, bracket, word, outer, rfl, hbracket, hinner⟩ := ih
    exact ⟨_ :: inner, bracket, word, outer, rfl, hbracket, List.forall_mem_cons.mpr ⟨hopen, hinner⟩⟩

theorem inGroup_of_open (group : Group) (h : ∀ lexeme ∈ front, lexeme.kind ≠ .closing .round) :
    InGroup (front.reverse ++ group.opener :: group.word :: group.before) := by
  induction front using List.reverseRecOn with
  | nil => exact .opened group.opener_kind group.word_const
  | append_singleton front lexeme ih =>
    rw [List.forall_mem_append, List.forall_mem_singleton] at h
    rw [List.reverse_append]
    exact .inside h.2 (ih h.1)

/-- Brackets that nest do not open a group that stays open. -/
theorem exists_closing_of_nested {inner outer : List Lexeme} {bracket : Lexeme}
    (h : Nested (marks (outer ++ bracket :: inner))) (hbracket : bracket.kind = .opening .round) :
    ∃ lexeme ∈ inner, lexeme.kind = .closing .round := by
  rw [marks_append, marks_cons_of_some (mark?_of_opening hbracket), Mark.nested_iff, Mark.openBehind?_append,
    Option.bind_eq_some_iff] at h
  obtain ⟨names, -, hinner⟩ := h
  rw [Mark.openBehind?] at hinner
  by_contra hopen
  have hclosing : Mark.closing Bracket.round ∉ marks inner := by
    intro hmem
    obtain ⟨lexeme, hlexeme, hmark⟩ := List.mem_filterMap.mp hmem
    exact hopen ⟨lexeme, hlexeme, mark?_eq_closing_iff.mp hmark⟩
  have hstays := Mark.mem_of_openBehind? hinner List.mem_cons_self hclosing
  simp at hstays

theorem inGroup_iff_of_nested (group : Group) (level : Nested (marks front)) :
    InGroup (front.reverse ++ group.opener :: group.word :: group.before) ↔
      ∀ lexeme ∈ front, lexeme.kind ≠ .closing .round := by
  refine ⟨fun h => ?_, inGroup_of_open group⟩
  obtain ⟨inner, bracket, word, outer, hsplit, hbracket, hinner⟩ := exists_opener_of_inGroup h
  rcases List.append_eq_append_iff.mp hsplit with ⟨more, rfl, -⟩ | ⟨more, hfront, hrest⟩
  · exact fun lexeme hlexeme => hinner lexeme (by simp [hlexeme])
  · cases more with
    | nil =>
      rw [List.append_nil] at hfront
      exact fun lexeme hlexeme => hinner lexeme (by simp [← hfront, hlexeme])
    | cons first more =>
      obtain ⟨rfl, -⟩ := List.cons.inj hrest
      -- The bracket stands in `front`, and all that nests there is closed.
      have hlevel : front = more.reverse ++ bracket :: inner.reverse := by
        rw [← List.reverse_reverse front, hfront]
        simp
      obtain ⟨lexeme, hlexeme, hkind⟩ := exists_closing_of_nested (hlevel ▸ level) hbracket
      exact absurd hkind (hinner lexeme (List.mem_reverse.mp hlexeme))

namespace Group

theorem Holds.isIn (h : group.Holds front spec) (hgroup : group.IsIn code) : spec.IsIn code := by
  obtain ⟨rest, hinside, hbehind⟩ := h.inside
  rw [hgroup, Specification.IsIn, h.before, hinside, hbehind]
  simp

theorem Holds.inDeclaration_iff (h : group.Holds front spec) :
    InDeclaration spec.before ↔ ∀ lexeme ∈ front, lexeme.kind ≠ .closing .round := by
  rw [← inGroup_iff_of_nested group h.level, ← h.before]
  refine ⟨fun hin => ?_, .group⟩
  rcases List.eq_nil_or_concat' front with rfl | ⟨front, last, rfl⟩
  · rw [h.before]
    exact .opened group.opener_kind group.word_const
  · have hnot : ¬ IsConst last := h.own last (by simp)
    rw [h.before, List.reverse_append] at hin ⊢
    exact (inDeclaration_cons_iff.mp hin).resolve_left hnot

/-- A specification of a group is declared up to the first pair of round brackets, unless it is read as a
type. -/
theorem Holds.isDeclared_iff (h : group.Holds front spec) :
    spec.IsDeclared ↔ (∀ lexeme ∈ front, lexeme.kind ≠ .closing .round) ∧
      (spec.type? = none → ∀ previous ∈ front.getLast?, previous.kind ≠ .identifier) := by
  constructor
  · rintro ⟨declaration, notType⟩
    have hopen := h.inDeclaration_iff.mp declaration
    refine ⟨hopen, fun htype previous hlast hkind => ?_⟩
    obtain ⟨front, rfl⟩ := List.getLast?_eq_some_iff.mp hlast
    rw [List.forall_mem_append] at hopen
    exact notType htype previous _ (by rw [h.before, List.reverse_append]; rfl) hkind
      (.group (inGroup_of_open group hopen.1))
  · rintro ⟨hopen, hname⟩
    refine ⟨h.inDeclaration_iff.mpr hopen, fun htype previous higher hbefore hkind _ => ?_⟩
    rw [h.before] at hbefore
    rcases List.eq_nil_or_concat' front with rfl | ⟨front, last, rfl⟩
    · obtain ⟨rfl, -⟩ := List.cons.inj hbefore
      rw [group.opener_kind] at hkind
      cases hkind
    · rw [List.reverse_append] at hbefore
      obtain ⟨rfl, -⟩ := List.cons.inj hbefore
      exact hname htype last (by simp) hkind

end Group

/-! ## The value of a constant -/

/-- The last specification of a name gives its value. -/
theorem exists_last {specs : List Specification} (horder : specs.Pairwise Specification.Before)
    (hspec : spec ∈ specs) : ∃ last ∈ specs, (last = spec ∨ spec.Before last) ∧
      last.name.text = spec.name.text ∧
      Constant.value? (specs.map Specification.constant) spec.name.text = some last.literal.body := by
  rw [value?_map_constant]
  cases hfound : specs.reverse.find? fun other => other.name.text = spec.name.text with
  | none =>
    have hnone := List.find?_eq_none.mp hfound spec (List.mem_reverse.mpr hspec)
    simp at hnone
  | some last =>
    obtain ⟨hname, later, earlier, hsplit, hlater⟩ := List.find?_eq_some_iff_append.mp hfound
    rw [List.reverse_eq_iff, List.reverse_append, List.reverse_cons, List.append_assoc] at hsplit
    subst hsplit
    refine ⟨last, by simp, ?_, of_decide_eq_true hname, rfl⟩
    rw [List.mem_append, List.singleton_append, List.mem_cons, List.mem_reverse, List.mem_reverse] at hspec
    rcases hspec with hearlier | rfl | hbehind
    · right
      rw [List.pairwise_append] at horder
      exact horder.2.2 spec (List.mem_reverse.mpr hearlier) last (by simp)
    · exact .inl rfl
    · have hother := hlater spec hbehind
      simp at hother

end

/-! ## Balanced code -/

/-- In balanced code every group is closed. Of its own specifications those are read that no closing round bracket
of the group stands before, unless the name is taken for the type of the name directly before it. A specification
that is read gives its name the value, or a later one does. -/
theorem specifications_of_groups {lexemes : List Lexeme} (hbalance : checkBalance lexemes = .ok ()) :
    ∃ specs : List Specification, Constant.all lexemes = specs.map Specification.constant ∧
      specs.Pairwise Specification.Before ∧
      (∀ spec ∈ specs, spec.IsIn (withoutComments lexemes) ∧ spec.IsDeclared) ∧
      (∀ before word opener rest, withoutComments lexemes = before ++ word :: opener :: rest → IsConst word →
        opener.kind = .opening .round →
        ∃ group : Group, group.IsIn (withoutComments lexemes) ∧ group.before = before.reverse) ∧
      ∀ group : Group, group.IsIn (withoutComments lexemes) → ∀ front spec, group.Holds front spec →
        (spec ∈ specs ↔ (∀ lexeme ∈ front, lexeme.kind ≠ .closing .round) ∧
          (spec.type? = none → ∀ previous ∈ front.getLast?, previous.kind ≠ .identifier)) ∧
        (spec ∈ specs → ∃ last ∈ specs, (last = spec ∨ spec.Before last) ∧
          last.name.text = spec.name.text ∧
          Constant.value? (Constant.all lexemes) spec.name.text = some last.literal.body) := by
  have hnested : Nested (marks (withoutComments lexemes)) := by
    rw [marks_withoutComments]
    exact checkBalance_eq_ok_iff.mp hbalance
  obtain ⟨specs, hspecs, horder, hexact⟩ := exists_specifications lexemes
  refine ⟨specs, hspecs, horder, fun spec => (hexact spec).mp, ?_, ?_⟩
  · intro before word opener rest hcode hword hopener
    exact exists_group hnested hcode hword hopener
  · intro group hgroup front spec hholds
    constructor
    · rw [hexact, ← hholds.isDeclared_iff]
      exact and_iff_right (hholds.isIn hgroup)
    · intro hspec
      rw [hspecs]
      exact exists_last horder hspec

/-- The specification behind a call is not read. -/
theorem specifications_of_groups_behind_call :
    ∃ lexemes, readAll "const (a = f(1)\nk = \"v\")" = .ok lexemes ∧ checkBalance lexemes = .ok () ∧
      ∃ specs : List Specification, Constant.all lexemes = specs.map Specification.constant ∧
        ∃ group : Group, ∃ front spec, group.IsIn (withoutComments lexemes) ∧ group.Holds front spec ∧
          spec.name.text = "k" ∧ spec ∉ specs := by
  let word : Lexeme := ⟨.identifier, "const", ⟨0, 1⟩⟩
  let opener : Lexeme := ⟨.opening .round, "(", ⟨6, 1⟩⟩
  let call : Lexeme := ⟨.closing .round, ")", ⟨14, 1⟩⟩
  let front : List Lexeme := [⟨.identifier, "a", ⟨7, 1⟩⟩, ⟨.punctuation, "=", ⟨9, 1⟩⟩,
    ⟨.identifier, "f", ⟨11, 1⟩⟩, ⟨.opening .round, "(", ⟨12, 1⟩⟩, ⟨.number, "1", ⟨13, 1⟩⟩, call]
  let name : Lexeme := ⟨.identifier, "k", ⟨16, 2⟩⟩
  let assign : Lexeme := ⟨.punctuation, "=", ⟨18, 2⟩⟩
  let literal : Lexeme := ⟨.quoted .double, "\"v\"", ⟨20, 2⟩⟩
  let closer : Lexeme := ⟨.closing .round, ")", ⟨23, 2⟩⟩
  let lexemes := word :: opener :: (front ++ [name, assign, literal, closer])
  let group : Group := ⟨[], word, opener, front ++ [name, assign, literal], closer, [], ⟨rfl, rfl⟩, rfl, rfl,
    Mark.nested_iff.mpr rfl⟩
  let spec : Specification := ⟨front.reverse ++ [opener, word], name, none, assign, literal, [closer], rfl,
    by simp, ⟨rfl, rfl⟩, .inl rfl⟩
  have hread : readAll "const (a = f(1)\nk = \"v\")" = .ok lexemes := by decide +kernel
  have hbalance : checkBalance lexemes = .ok () := by decide +kernel
  obtain ⟨specs, hspecs, -, -, -, hgroups⟩ := specifications_of_groups hbalance
  have hgroup : group.IsIn (withoutComments lexemes) := rfl
  have hholds : group.Holds front spec := by
    refine ⟨rfl, ⟨[], rfl, rfl⟩, Mark.nested_iff.mpr rfl, ?_⟩
    rintro _ ⟨⟩ ⟨hkind, -⟩
    cases hkind
  refine ⟨lexemes, hread, hbalance, specs, hspecs, group, front, spec, hgroup, hholds, rfl, fun hspec => ?_⟩
  have hopen := ((hgroups group hgroup front spec hholds).1.mp hspec).1
  exact hopen call (by simp [front]) rfl

/-- The name at the end of a line is read as the constant, and the next one as its type. -/
example : (readAll "const (a = b\nk = \"v\")").map Constant.all = .ok [⟨"b", "v"⟩] := by decide +kernel

end Phrasebook.Table
